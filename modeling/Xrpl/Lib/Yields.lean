import Mathlib.Tactic.Common

/-!
# Correctness of computations in `Option` and `Except`

`Yields o Q` says that the computation `o` has a result and that the result satisfies `Q`; `Ensures o Q` that the
result, if there is one, satisfies `Q`.  The rules follow the way such computations are put together: `pure`, `bind`,
and loops over a list.  `List.foldl_rest` is the rule for a loop that cannot fail.  `Succeeds` is `Yields` for a
computation in `Except`, and `Meets` says of such a computation what its result or its error is like.  `Agrees` compares
two computations; `Along` and `Throughout` speak of the states that a run goes through.
-/

/-- The computation has a result, and it satisfies `Q`. -/
def Yields {α : Type} (o : Option α) (Q : α → Prop) : Prop := ∃ a, o = some a ∧ Q a

namespace Yields

variable {α β σ : Type} {Q : α → Prop}

lemma pure {a : α} (h : Q a) : Yields (some a) Q := ⟨a, rfl, h⟩

variable {o : Option α} {P : α → Prop}

lemma mono (h : Yields o P) (hPQ : ∀ a, P a → Q a) : Yields o Q := by
  obtain ⟨a, ho, ha⟩ := h
  exact ⟨a, ho, hPQ a ha⟩

lemma bind {f : α → Option β} {Q : β → Prop} (h : Yields o P)
    (hf : ∀ a, P a → Yields (f a) Q) : Yields (o >>= f) Q := by
  obtain ⟨a, rfl, ha⟩ := h
  exact hf a ha

lemma map {f : α → β} {Q : β → Prop} (h : Yields o P) (hf : ∀ a, P a → Q (f a)) : Yields (o.map f) Q := by
  obtain ⟨a, rfl, ha⟩ := h
  exact ⟨f a, rfl, hf a ha⟩

variable {l : List α} {s : σ} {f : σ → α → Option σ}

private lemma foldlM_rest {I : List α → σ → Prop} (hst : ∀ a l s, I (a :: l) s → Yields (f s a) (I l)) (h : I l s) :
    Yields (l.foldlM f s) (I []) := by
  induction l generalizing s with
  | nil => exact pure h
  | cons a l ih =>
    exact (hst a l s h).bind fun s' hs' => ih hs'

lemma foldlM {I : σ → Prop} (hst : ∀ a ∈ l, ∀ s, I s → Yields (f s a) I) (h : I s) : Yields (l.foldlM f s) I := by
  refine (foldlM_rest (I := fun rest s => I s ∧ ∀ a ∈ rest, a ∈ l) ?_ ⟨h, fun a ha => ha⟩).mono fun s hs => hs.1
  intro a rest s hs
  refine (hst a (hs.2 a (by simp)) s hs.1).mono fun s' hs' => ⟨hs', fun b hb => hs.2 b (by simp [hb])⟩

end Yields

/-- The result of the computation, if there is one, satisfies `Q`. -/
def Ensures {α : Type} (o : Option α) (Q : α → Prop) : Prop := ∀ a, o = some a → Q a

variable {α : Type}

namespace Ensures

variable {β σ : Type} {Q : α → Prop}

lemma pure {a : α} (h : Q a) : Ensures (some a) Q := by
  intro b hb
  obtain rfl := Option.some.inj hb
  exact h

variable {o : Option α} {P : α → Prop}

lemma mono (h : Ensures o P) (hPQ : ∀ a, P a → Q a) : Ensures o Q := fun a ha => hPQ a (h a ha)

lemma bind {f : α → Option β} {Q : β → Prop} (h : Ensures o P)
    (hf : ∀ a, P a → Ensures (f a) Q) : Ensures (o >>= f) Q := by
  intro b hb
  obtain ⟨a, ha, hb⟩ := Option.bind_eq_some_iff.1 hb
  exact hf a (h a ha) b hb

lemma map {f : α → β} {Q : β → Prop} (h : Ensures o P) (hf : ∀ a, P a → Q (f a)) : Ensures (o.map f) Q := by
  intro b hb
  obtain ⟨a, ha, rfl⟩ := Option.map_eq_some_iff.1 hb
  exact hf a (h a ha)

variable {l : List α} {s : σ} {f : σ → α → Option σ}

lemma foldlM_rest {I : List α → σ → Prop} (hst : ∀ a l s, I (a :: l) s → Ensures (f s a) (I l)) (h : I l s) :
    Ensures (l.foldlM f s) (I []) := by
  induction l generalizing s with
  | nil => exact pure h
  | cons a l ih =>
    exact (hst a l s h).bind fun s' hs' => ih hs'

lemma foldlM {I : σ → Prop} (hst : ∀ a ∈ l, ∀ s, I s → Ensures (f s a) I) (h : I s) : Ensures (l.foldlM f s) I := by
  refine (foldlM_rest (I := fun rest s => I s ∧ ∀ a ∈ rest, a ∈ l) ?_ ⟨h, fun a ha => ha⟩).mono fun s hs => hs.1
  intro a rest s hs
  refine (hst a (hs.2 a (by simp)) s hs.1).mono fun s' hs' => ⟨hs', fun b hb => hs.2 b (by simp [hb])⟩

end Ensures

/-- The computation does not throw, and its result satisfies `Q`. -/
def Succeeds {ε α : Type} (x : Except ε α) (Q : α → Prop) : Prop := ∃ a, x = .ok a ∧ Q a

namespace Succeeds

variable {ε β : Type} {a : α} {Q : α → Prop}

lemma pure (h : Q a) : Succeeds (.ok a : Except ε α) Q := ⟨a, rfl, h⟩

variable {x : Except ε α} {P : α → Prop}

lemma mono (h : Succeeds x P) (hPQ : ∀ a, P a → Q a) : Succeeds x Q := by
  obtain ⟨a, hx, ha⟩ := h
  exact ⟨a, hx, hPQ a ha⟩

variable {Q : β → Prop} {f : α → Except ε β}

lemma bind (h : Succeeds x P) (hf : ∀ a, P a → Succeeds (f a) Q) : Succeeds (x >>= f) Q := by
  obtain ⟨a, rfl, ha⟩ := h
  exact hf a ha

lemma ok_bind (h : Succeeds (f a) Q) : Succeeds (.ok a >>= f) Q := h

lemma map {f : α → β} (h : Succeeds x P) (hf : ∀ a, P a → Q (f a)) : Succeeds (f <$> x) Q := by
  obtain ⟨a, rfl, ha⟩ := h
  exact ⟨f a, rfl, hf a ha⟩

lemma foldlM_rest {σ : Type} {I : List α → σ → Prop} {f : σ → α → Except ε σ}
    (hst : ∀ a l s, I (a :: l) s → Succeeds (f s a) (I l)) {l : List α} {s : σ} (h : I l s) :
    Succeeds (l.foldlM f s) (I []) := by
  induction l generalizing s with
  | nil => exact pure h
  | cons a l ih =>
    exact (hst a l s h).bind fun s' hs' => ih hs'

lemma bind_eq {y : Except ε β} (h : Succeeds x P) (hf : ∀ a, P a → f a = y) : (x >>= f) = y := by
  obtain ⟨a, rfl, ha⟩ := h
  exact hf a ha

end Succeeds

/-- The computation has a result that satisfies `Q`, or it fails with an error that satisfies `E`. -/
def Meets {ε α : Type} (E : ε → Prop) (x : Except ε α) (Q : α → Prop) : Prop :=
  match x with
  | .ok a => Q a
  | .error e => E e

namespace Meets

variable {ε β : Type} {E : ε → Prop} {x : Except ε α} {P : α → Prop} {Q : α → Prop}

lemma mono (h : Meets E x P) (hPQ : ∀ a, P a → Q a) : Meets E x Q := by
  cases x with
  | ok a => exact hPQ a h
  | error e => exact h

lemma bind {f : α → Except ε β} {Q : β → Prop} (h : Meets E x P)
    (hf : ∀ a, P a → Meets E (f a) Q) : Meets E (x >>= f) Q := by
  cases x with
  | ok a => exact hf a h
  | error e => exact h

lemma and (h : Meets E x P) (h' : Meets E x Q) : Meets E x fun a => P a ∧ Q a := by
  cases x with
  | ok a => exact ⟨h, h'⟩
  | error e => exact h

lemma of_ok {a : α} (h : Meets E x Q) (hx : x = .ok a) : Q a := by
  subst hx
  exact h

end Meets

variable {ε : Type} {x : Except ε α}

lemma Except.of_bind_eq_ok {β : Type} {f : α → Except ε β} {b : β} (h : (x >>= f) = .ok b) :
    ∃ a, x = .ok a ∧ f a = .ok b := by
  cases x with
  | error e => cases h
  | ok a => exact ⟨a, rfl, h⟩

lemma Except.of_toOption_eq_some {a : α} (h : x.toOption = some a) : x = .ok a := by
  cases x with
  | error e => cases h
  | ok b => exact congrArg Except.ok (Option.some.inj h)

/-- Every result of the first computation is a result of the second one. -/
def Agrees {ε α : Type} (x y : Except ε α) : Prop := ∀ a, x = .ok a → y = .ok a

namespace Agrees

variable {β : Type}

lemma refl (x : Except ε α) : Agrees x x := fun _ h => h

variable {f g : α → Except ε β}

lemma bind {x y : Except ε α} (h : Agrees x y) (hf : ∀ a, x = .ok a → Agrees (f a) (g a)) :
    Agrees (x >>= f) (y >>= g) := by
  intro b hb
  obtain ⟨a, ha, hb⟩ := Except.of_bind_eq_ok hb
  rw [h a ha]
  exact hf a ha b hb

lemma bind_left (x : Except ε α) (hf : ∀ a, x = .ok a → Agrees (f a) (g a)) :
    Agrees (x >>= f) (x >>= g) := (refl x).bind hf

end Agrees

/-- On the way from `s` through the inputs, as long as no step throws, each input satisfies `P` in the state in which it
comes. -/
def Along {ε σ ι : Type} (step : σ → ι → Except ε σ) (P : σ → ι → Prop) : σ → List ι → Prop
  | _, [] => True
  | s, c :: cs => P s c ∧
    match step s c with
    | .ok s' => Along step P s' cs
    | .error _ => True

namespace Along

variable {σ ι : Type} {step : σ → ι → Except ε σ} {P : σ → ι → Prop}

instance decidable [∀ s c, Decidable (P s c)] : ∀ s cs, Decidable (Along step P s cs)
  | _, [] => inferInstanceAs (Decidable True)
  | s, c :: cs =>
    have : Decidable (match step s c with
        | .ok s' => Along step P s' cs
        | .error _ => True) :=
      match step s c with
      | .ok s' => decidable s' cs
      | .error _ => .isTrue trivial
    inferInstanceAs (Decidable (_ ∧ _))

variable {cs : List ι} {s : σ} {I : σ → Prop} {s' : σ}

/-- The rule for a run: the condition on the inputs and the invariant are enough for a step not to throw. -/
lemma foldlM (hst : ∀ s c, I s → P s c → Succeeds (step s c) I) (hs : I s)
    (h : Along step P s cs) : Succeeds (cs.foldlM step s) I := by
  induction cs generalizing s with
  | nil => exact .pure hs
  | cons c cs ih =>
    obtain ⟨s', hst', hs'⟩ := hst s c hs h.1
    have hr : Along step P s' cs := by
      have hr := h.2
      rwa [hst'] at hr
    rw [List.foldlM_cons, hst']
    exact ih hs' hr

lemma foldlM_of_ok (hst : ∀ s c s', I s → P s c → step s c = .ok s' → I s')
    (hs : I s) (h : Along step P s cs) (hrun : cs.foldlM step s = .ok s') : I s' := by
  induction cs generalizing s with
  | nil =>
    obtain rfl : s = s' := Except.ok.inj hrun
    exact hs
  | cons c cs ih =>
    obtain ⟨hc, hr⟩ := h
    rw [List.foldlM_cons] at hrun
    cases hst' : step s c with
    | error e =>
      rw [hst'] at hrun
      cases hrun
    | ok s'' =>
      rw [hst'] at hrun hr
      exact ih (hst s c s'' hs hc hst') hr hrun

lemma append {cs' : List ι} (h : Along step P s cs) (hrun : cs.foldlM step s = .ok s')
    (h' : Along step P s' cs') : Along step P s (cs ++ cs') := by
  induction cs generalizing s with
  | nil =>
    obtain rfl : s = s' := Except.ok.inj hrun
    exact h'
  | cons c cs ih =>
    obtain ⟨hc, hr⟩ := h
    obtain ⟨s1, hs1, hrun⟩ := Except.of_bind_eq_ok hrun
    rw [hs1] at hr
    refine ⟨hc, ?_⟩
    rw [hs1]
    exact ih hr hrun

lemma of_forall (h : ∀ s, ∀ c ∈ cs, P s c) : Along step P s cs := by
  induction cs generalizing s with
  | nil => trivial
  | cons c cs ih =>
    refine ⟨h s c List.mem_cons_self, ?_⟩
    split
    · exact ih fun s' c' hc' => h s' c' (List.mem_cons_of_mem _ hc')
    · trivial

lemma and_forall {Q : ι → Prop} (h : Along step P s cs) (hQ : ∀ c ∈ cs, Q c) :
    Along step (fun s c => P s c ∧ Q c) s cs := by
  induction cs generalizing s with
  | nil => trivial
  | cons c cs ih =>
    obtain ⟨hc, hr⟩ := h
    refine ⟨⟨hc, hQ c (by simp)⟩, ?_⟩
    cases hs : step s c with
    | error e => trivial
    | ok s' =>
      rw [hs] at hr
      exact ih hr fun c hc => hQ c (by simp [hc])

end Along

/-- On the way from `s` through the inputs each input satisfies `P` in the state in which it comes. -/
def Throughout {σ ι : Type} (step : σ → ι → σ) (P : σ → ι → Prop) : σ → List ι → Prop
  | _, [] => True
  | s, c :: cs => P s c ∧ Throughout step P (step s c) cs

namespace Throughout

variable {σ ι : Type} {step : σ → ι → σ} {P : σ → ι → Prop} {cs : List ι} {s : σ}

instance decidable [∀ s c, Decidable (P s c)] : ∀ s cs, Decidable (Throughout step P s cs)
  | _, [] => inferInstanceAs (Decidable True)
  | s, c :: cs =>
    have := decidable (step s c) cs
    inferInstanceAs (Decidable (_ ∧ _))

lemma foldl {I : σ → Prop} (hst : ∀ s c, I s → P s c → I (step s c)) (hs : I s)
    (h : Throughout step P s cs) : I (cs.foldl step s) := by
  induction cs generalizing s with
  | nil => exact hs
  | cons c cs ih => exact ih (hst s c hs h.1) h.2

lemma of_forall (h : ∀ s c, P s c) : Throughout step P s cs := by
  induction cs generalizing s with
  | nil => trivial
  | cons c cs ih => exact ⟨h s c, ih⟩

lemma of_append {cs' : List ι} (h : Throughout step P s (cs ++ cs')) :
    Throughout step P s cs ∧ Throughout step P (cs.foldl step s) cs' := by
  induction cs generalizing s with
  | nil => exact ⟨trivial, h⟩
  | cons c cs ih => exact ⟨⟨h.1, (ih h.2).1⟩, (ih h.2).2⟩

end Throughout

/-- The rule for a loop that cannot fail, with an invariant that speaks of the elements that are still to come. -/
lemma List.foldl_rest {σ : Type} {I : List α → σ → Prop} {f : σ → α → σ} {l : List α}
    (hs : ∀ a ∈ l, ∀ rest s, I (a :: rest) s → I rest (f s a)) {s : σ} (h : I l s) : I [] (l.foldl f s) := by
  induction l generalizing s with
  | nil => exact h
  | cons a l ih => exact ih (fun b hb => hs b (by simp [hb])) (hs a (by simp) l s h)
