import Mathlib.Data.List.Perm.Basic

/-!
# Trees of owned nodes with back pointers

A node owns its children and points back to its parent.  The owned part is an inductive type; a raw pointer is the
address of a node, and following it means looking for the node with that address.

* `Frame`, `plug`: a tree seen from one of its nodes, the frames of the nodes above it being the *context*;
* `local_plug_iff`: a property that links each node with its parent and its children holds of a tree when it holds of
  the node in focus and of its context;
* `get_plug`, `set_plug`, `climb_plug`: with distinct addresses, dereferencing a pointer, writing through it, and
  the loop that follows the parent pointers up to the root, all seen from the node in focus.
-/

namespace OwnedTree

open List

inductive Tree (α : Type) where
  | node (val : α) (children : List (Tree α))

namespace Tree

variable {α A : Type}

def val : Tree α → α
  | node v _ => v

def children : Tree α → List (Tree α)
  | node _ cs => cs

@[simp] lemma val_node (v : α) (cs : List (Tree α)) : (node v cs).val = v := rfl

@[simp] lemma children_node (v : α) (cs : List (Tree α)) : (node v cs).children = cs := rfl

lemma ind {motive : Tree α → Prop} (h : ∀ v cs, (∀ c ∈ cs, motive c) → motive (node v cs)) (t : Tree α) :
    motive t := by
  refine @Tree.rec α motive (fun cs => ∀ c ∈ cs, motive c) h ?_ ?_ t
  · intro c hc
    exact absurd hc not_mem_nil
  intro c cs ihc ihcs d hd
  rcases mem_cons.1 hd with rfl | hd
  · exact ihc
  · exact ihcs d hd

def mapVal (g : α → α) : Tree α → Tree α
  | node v cs => node (g v) cs

@[simp] lemma val_mapVal (g : α → α) (t : Tree α) : (t.mapVal g).val = g t.val := by cases t; rfl

mutual

def nodes : Tree α → List α
  | node v cs => v :: nodesList cs

def nodesList : List (Tree α) → List α
  | [] => []
  | c :: cs => nodes c ++ nodesList cs

end

lemma nodes_node (v : α) (cs : List (Tree α)) : (node v cs).nodes = v :: nodesList cs := by
  rw [nodes]

private lemma nodesList_eq (cs : List (Tree α)) : nodesList cs = cs.flatMap nodes := by
  induction cs with
  | nil => rfl
  | cons c cs ih => rw [nodesList, ih, flatMap_cons]

lemma nodesList_append (cs ds : List (Tree α)) : nodesList (cs ++ ds) = nodesList cs ++ nodesList ds := by
  simp only [nodesList_eq, flatMap_append]

variable {cs : List (Tree α)} {β : Type} {g : α → α} {p : α → Bool} {t : Tree α} {f : Tree α → Tree α}

lemma nodesList_perm {ds : List (Tree α)} (h : cs.Perm ds) : (nodesList cs).Perm (nodesList ds) := by
  simp only [nodesList_eq]
  exact h.flatMap_right nodes

lemma mem_nodesList {v : α} : v ∈ nodesList cs ↔ ∃ c ∈ cs, v ∈ nodes c := by
  rw [nodesList_eq, mem_flatMap]

lemma val_mem_nodes (t : Tree α) : t.val ∈ t.nodes := by
  cases t
  simp [nodes]

private lemma map_nodes_mapVal {f : α → β} (h : ∀ v, f (g v) = f v) (t : Tree α) :
    (t.mapVal g).nodes.map f = t.nodes.map f := by
  cases t
  simp [mapVal, nodes, h]

lemma map_nodesList_mapVal {f : α → β} (h : ∀ v, f (g v) = f v) (cs : List (Tree α)) :
    (nodesList (cs.map (mapVal g))).map f = (nodesList cs).map f := by
  induction cs with
  | nil => rfl
  | cons c cs ih => rw [map_cons, nodesList, nodesList, map_append, map_append, ih, map_nodes_mapVal h]

mutual

/-- The first node, a node before its children, whose data satisfy `p`. -/
def find (p : α → Bool) : Tree α → Option (Tree α)
  | node v cs => if p v then some (node v cs) else findList p cs

def findList (p : α → Bool) : List (Tree α) → Option (Tree α)
  | [] => none
  | c :: cs =>
    match find p c with
    | some t => some t
    | none => findList p cs

end

mutual

/-- Exchange the nodes whose data satisfy `p` for what `f` makes of them. -/
def modify (p : α → Bool) (f : Tree α → Tree α) : Tree α → Tree α
  | node v cs => if p v then f (node v cs) else node v (modifyList p f cs)

def modifyList (p : α → Bool) (f : Tree α → Tree α) : List (Tree α) → List (Tree α)
  | [] => []
  | c :: cs => modify p f c :: modifyList p f cs

end

private lemma modifyList_eq (p : α → Bool) (f : Tree α → Tree α) (cs : List (Tree α)) :
    modifyList p f cs = cs.map (modify p f) := by
  induction cs with
  | nil => rfl
  | cons c cs ih => rw [modifyList, ih, map_cons]

private lemma findList_append (p : α → Bool) (cs ds : List (Tree α)) :
    findList p (cs ++ ds) = (findList p cs).or (findList p ds) := by
  induction cs with
  | nil => rfl
  | cons c cs ih =>
    rw [cons_append, findList, findList]
    cases find p c with
    | some t => rfl
    | none => exact ih

lemma find_eq_none_iff : find p t = none ↔ ∀ v ∈ nodes t, p v = false := by
  induction t using ind with
  | h v cs ih =>
    have hl : findList p cs = none ↔ ∀ c ∈ cs, find p c = none := by
      clear ih
      induction cs with
      | nil => simp [findList]
      | cons c cs ih => cases hc : find p c <;> simp [findList, hc, ih]
    rw [find, nodes_node]
    by_cases hv : p v
    · simp [hv]
    simp only [hv, Bool.false_eq_true, ↓reduceIte, mem_cons, forall_eq_or_imp, true_and, hl, mem_nodesList]
    constructor
    · intro h w hw
      obtain ⟨c, hc, hwc⟩ := hw
      exact (ih c hc).1 (h c hc) w hwc
    · intro h c hc
      exact (ih c hc).2 fun w hw => h w ⟨c, hc, hw⟩

private lemma findList_eq_none (h : ∀ v ∈ nodesList cs, p v = false) : findList p cs = none := by
  induction cs with
  | nil => rfl
  | cons c cs ih =>
    have hc : find p c = none := find_eq_none_iff.2 fun v hv => h v (mem_append_left _ hv)
    rw [findList, hc]
    exact ih fun v hv => h v (mem_append_right _ hv)

private lemma modify_of_forall (h : ∀ v ∈ nodes t, p v = false) : modify p f t = t := by
  induction t using ind with
  | h v cs ih =>
    rw [modify, if_neg (by simp [h v mem_cons_self]), modifyList_eq]
    congr 1
    refine (map_congr_left fun c hc => ?_).trans (map_id' cs)
    exact ih c hc fun w hw => h w (mem_cons_of_mem _ (mem_nodesList.2 ⟨c, hc, hw⟩))

private lemma modifyList_of_forall (h : ∀ v ∈ nodesList cs, p v = false) : modifyList p f cs = cs := by
  rw [modifyList_eq]
  refine (map_congr_left fun c hc => ?_).trans (map_id' cs)
  exact modify_of_forall fun w hw => h w (mem_nodesList.2 ⟨c, hc, hw⟩)

/-! ### A tree seen from one of its nodes -/

/-- A node one of whose children is missing. -/
structure Frame (α : Type) where
  val : α
  left : List (Tree α)
  right : List (Tree α)

def Frame.fill (fr : Frame α) (t : Tree α) : Tree α := node fr.val (fr.left ++ t :: fr.right)

def Frame.mapVal (g : α → α) (fr : Frame α) : Frame α := { fr with val := g fr.val }

def Frame.nodes (fr : Frame α) : List α := fr.val :: (nodesList fr.left ++ nodesList fr.right)

/-- The tree whose node `t` has the frames `ctx` above it, the nearest one first. -/
def plug : List (Frame α) → Tree α → Tree α
  | [], t => t
  | fr :: ctx, t => plug ctx (fr.fill t)

def ctxNodes (ctx : List (Frame α)) : List α := ctx.flatMap Frame.nodes

def above : List (Frame α) → Option α
  | [] => none
  | fr :: _ => some fr.val

lemma above_map (g : α → α) (ctx : List (Frame α)) : above (ctx.map (Frame.mapVal g)) = (above ctx).map g := by
  cases ctx <;> rfl

/-- What `g` does not change is not changed by writing along a context. -/
lemma map_ctxNodes_mapVal {f : α → β} (h : ∀ v, f (g v) = f v) (ctx : List (Frame α)) :
    (ctxNodes (ctx.map (Frame.mapVal g))).map f = (ctxNodes ctx).map f := by
  induction ctx with
  | nil => rfl
  | cons fr ctx ih =>
    simp only [ctxNodes] at ih
    simp [ctxNodes, Frame.nodes, Frame.mapVal, h, ih]

lemma plug_append (ctx ctx' : List (Frame α)) (t : Tree α) : plug (ctx ++ ctx') t = plug ctx' (plug ctx t) := by
  induction ctx generalizing t with
  | nil => rfl
  | cons fr ctx ih => exact ih _

private lemma nodes_fill_perm (fr : Frame α) (t : Tree α) : (fr.fill t).nodes.Perm (t.nodes ++ fr.nodes) := by
  rw [Frame.fill, nodes_node, nodesList_append]
  exact ((perm_append_comm_assoc _ _ _).cons _).trans perm_middle.symm

lemma nodes_plug_perm (ctx : List (Frame α)) (t : Tree α) : (plug ctx t).nodes.Perm (t.nodes ++ ctxNodes ctx) := by
  induction ctx generalizing t with
  | nil => simp [plug, ctxNodes]
  | cons fr ctx ih =>
    have h := (ih (fr.fill t)).trans ((nodes_fill_perm fr t).append_right (ctxNodes ctx))
    rwa [append_assoc] at h

variable {ctx : List (Frame α)}

lemma mem_nodes_plug {v : α} (h : v ∈ t.val :: ctx.map Frame.val) : v ∈ (plug ctx t).nodes := by
  rw [(nodes_plug_perm ctx t).mem_iff, mem_append]
  rcases mem_cons.1 h with rfl | h
  · exact .inl (val_mem_nodes t)
  · obtain ⟨fr, hfr, rfl⟩ := mem_map.1 h
    exact .inr (mem_flatMap.2 ⟨fr, hfr, mem_cons_self ..⟩)

lemma val_plug_mem (fr : Frame α) (ctx : List (Frame α)) (t : Tree α) :
    (plug (fr :: ctx) t).val ∈ ctxNodes (fr :: ctx) := by
  induction ctx generalizing fr t with
  | nil => exact mem_append_left _ mem_cons_self
  | cons fr' ctx ih => exact mem_append_right _ (ih fr' (fr.fill t))

lemma map_nodes_plug_perm {f : α → β} (ctx : List (Frame α)) {t' : Tree α} {l : List β}
    (h : (t'.nodes.map f).Perm (l ++ t.nodes.map f)) :
    ((plug ctx t').nodes.map f).Perm (l ++ (plug ctx t).nodes.map f) := by
  refine ((nodes_plug_perm ctx t').map f).trans ?_
  rw [map_append]
  refine (h.append_right _).trans ?_
  rw [append_assoc, ← map_append]
  exact ((nodes_plug_perm ctx t).map f).symm.append_left l

lemma length_ctx_lt (ctx : List (Frame α)) (t : Tree α) : ctx.length < (plug ctx t).nodes.length := by
  have hle : ctx.length ≤ (ctxNodes ctx).length := by
    induction ctx with
    | nil => simp
    | cons fr ctx ih =>
      have : ctxNodes (fr :: ctx) = fr.nodes ++ ctxNodes ctx := rfl
      rw [this, length_append, length_cons, Frame.nodes, length_cons]
      omega
  have hpos : 0 < t.nodes.length := length_pos_of_mem (val_mem_nodes t)
  rw [(nodes_plug_perm ctx t).length_eq, length_append]
  omega

private lemma find_fill {fr : Frame α} (h : ∀ v ∈ fr.nodes, p v = false) (t : Tree α) :
    find p (fr.fill t) = find p t := by
  have hval : p fr.val = false := h _ mem_cons_self
  have hl : findList p fr.left = none := findList_eq_none fun v hv => h v (mem_cons_of_mem _ (mem_append_left _ hv))
  have hrt : findList p fr.right = none := findList_eq_none fun v hv => h v (mem_cons_of_mem _ (mem_append_right _ hv))
  rw [Frame.fill, find, hval, findList_append, hl, findList, hrt]
  cases find p t <;> rfl

private lemma modify_fill {fr : Frame α} (h : ∀ v ∈ fr.nodes, p v = false)
    (t : Tree α) : modify p f (fr.fill t) = fr.fill (modify p f t) := by
  have hval : p fr.val = false := h _ mem_cons_self
  have hl : modifyList p f fr.left = fr.left :=
    modifyList_of_forall fun v hv => h v (mem_cons_of_mem _ (mem_append_left _ hv))
  have hrt : modifyList p f fr.right = fr.right :=
    modifyList_of_forall fun v hv => h v (mem_cons_of_mem _ (mem_append_right _ hv))
  rw [modifyList_eq] at hl hrt
  rw [Frame.fill, modify, hval, modifyList_eq, map_append, map_cons, hl, hrt]
  rfl

private lemma find_plug (h : ∀ v ∈ ctxNodes ctx, p v = false) (t : Tree α) : find p (plug ctx t) = find p t := by
  induction ctx generalizing t with
  | nil => rfl
  | cons fr ctx ih =>
    rw [plug, ih fun v hv => h v (mem_append_right _ hv)]
    exact find_fill (fun v hv => h v (mem_append_left _ hv)) t

private lemma modify_plug_of_forall
    (h : ∀ v ∈ ctxNodes ctx, p v = false) (t : Tree α) : modify p f (plug ctx t) = plug ctx (modify p f t) := by
  induction ctx generalizing t with
  | nil => rfl
  | cons fr ctx ih =>
    rw [plug, plug, ih fun v hv => h v (mem_append_right _ hv)]
    rw [modify_fill (fun v hv => h v (mem_append_left _ hv)) t]

lemma exists_plug_of_find {s : Tree α} (h : find p t = some s) : p s.val = true ∧ ∃ ctx, t = plug ctx s := by
  induction t using ind with
  | h v cs ih =>
    rw [find] at h
    by_cases hv : p v
    · rw [if_pos hv, Option.some.injEq] at h
      subst h
      exact ⟨hv, [], rfl⟩
    rw [if_neg hv] at h
    have hl : ∃ l c r, cs = l ++ c :: r ∧ find p c = some s := by
      clear ih
      induction cs with
      | nil => simp [findList] at h
      | cons c cs ih =>
        rw [findList] at h
        cases hc : find p c with
        | some t =>
          rw [hc] at h
          exact ⟨[], c, cs, rfl, by rw [hc]; exact h⟩
        | none =>
          rw [hc] at h
          obtain ⟨l, d, r, rfl, hd⟩ := ih h
          exact ⟨c :: l, d, r, rfl, hd⟩
    obtain ⟨l, c, r, rfl, hc⟩ := hl
    obtain ⟨hp, ctx, rfl⟩ := ih c (by simp) hc
    exact ⟨hp, ctx ++ [⟨v, l, r⟩], by rw [plug_append]; rfl⟩

/-- At every node, `R` relates the data of its parent, its own data and the data of its children. -/
inductive Local (R : Option α → α → List α → Prop) : Option α → Tree α → Prop where
  | intro {u : Option α} {v : α} {cs : List (Tree α)} (here : R u v (cs.map val))
      (below : ∀ c ∈ cs, Local R (some v) c) : Local R u (node v cs)

/-- `R` at every node of a context whose focus has the data `x`. -/
def CtxLocal (R : Option α → α → List α → Prop) : List (Frame α) → α → Prop
  | [], _ => True
  | fr :: ctx, x =>
    R (above ctx) fr.val (fr.left.map val ++ x :: fr.right.map val) ∧
      (∀ c ∈ fr.left ++ fr.right, Local R (some fr.val) c) ∧ CtxLocal R ctx fr.val

section LocalProperties

variable {R : Option α → α → List α → Prop} {u : Option α}

lemma local_node {v : α} : Local R u (node v cs) ↔ R u v (cs.map val) ∧ ∀ c ∈ cs, Local R (some v) c := by
  constructor
  · intro h
    cases h with
    | intro here below => exact ⟨here, below⟩
  · intro h
    exact .intro h.1 h.2

lemma Local.here (h : Local R u t) : R u t.val (t.children.map val) := by
  cases h with
  | intro here below => exact here

lemma Local.child (h : Local R u t) : ∀ c ∈ t.children, Local R (some t.val) c := by
  cases h with
  | intro here below => exact below

/-- Nodes look at their parent only through what `R` reads of it. -/
lemma Local.of_parent {u' : Option α} (h : Local R u t) (hu : ∀ v vs, R u v vs → R u' v vs) :
    Local R u' t := by
  cases h with
  | intro here below => exact .intro (hu _ _ here) below

lemma local_plug_iff : Local R none (plug ctx t) ↔ Local R (above ctx) t ∧ CtxLocal R ctx t.val := by
  induction ctx generalizing t with
  | nil => simp [plug, above, CtxLocal]
  | cons fr ctx ih =>
    rw [plug, ih, Frame.fill, local_node, CtxLocal, map_append]
    simp only [mem_append, mem_cons]
    constructor
    · intro h
      obtain ⟨⟨hh, hb⟩, hctx⟩ := h
      exact ⟨hb t (.inr (.inl rfl)), hh, fun c hc => hb c (by tauto), hctx⟩
    intro h
    obtain ⟨ht, hh, hs, hctx⟩ := h
    refine ⟨⟨hh, fun c hc => ?_⟩, hctx⟩
    rcases hc with hc | rfl | hc
    · exact hs c (.inl hc)
    · exact ht
    · exact hs c (.inr hc)

/-- Change the data of every node of a context along with those of the focus.  `Q` says how the data of a node
change, as its parent sees it. -/
lemma CtxLocal.map {Q : α → α → Prop} {x x' : α} (h : CtxLocal R ctx x)
    (hx : Q x x') (hg : ∀ v, v ∈ ctx.map Frame.val → Q v (g v))
    (hh : ∀ u v l r x x', Q x x' → Q v (g v) → R u v (l ++ x :: r) → R (u.map g) (g v) (l ++ x' :: r))
    (hp : ∀ v w ws, R (some v) w ws → R (some (g v)) w ws) : CtxLocal R (ctx.map (Frame.mapVal g)) x' := by
  induction ctx generalizing x x' with
  | nil => trivial
  | cons fr ctx ih =>
    obtain ⟨h1, h2, h3⟩ := h
    refine ⟨?_, fun c hc => (h2 c hc).of_parent (hp fr.val), ?_⟩
    · rw [above_map]
      exact hh _ _ _ _ _ _ hx (hg _ (by simp)) h1
    · exact ih h3 (hg _ (by simp)) fun v hv => hg v (by simp [hv])

end LocalProperties

section Pointers

def Distinct (addr : α → A) (t : Tree α) : Prop := (t.nodes.map addr).Nodup

variable {parent : α → Option A} {addr : α → A}

lemma Distinct.plug_mapVal (hg : ∀ v, addr (g v) = addr v)
    (h : Distinct addr (plug ctx t)) : Distinct addr (plug ctx (t.mapVal g)) := by
  have hp : ((t.mapVal g).nodes.map addr).Perm ([] ++ t.nodes.map addr) := by
    rw [map_nodes_mapVal hg, nil_append]
  exact (map_nodes_plug_perm ctx hp).nodup_iff.2 h

/-- Following the parent pointers from the focus leads through the context and ends above the root. -/
def Linked (addr : α → A) (parent : α → Option A) : List (Frame α) → α → Prop
  | [], x => parent x = none
  | fr :: ctx, x => parent x = some (addr fr.val) ∧ Linked addr parent ctx fr.val

lemma Linked.congr {x x' : α}
    (h : Linked addr parent ctx x) (hx : parent x' = parent x) : Linked addr parent ctx x' := by
  cases ctx with
  | nil => exact hx.trans h
  | cons fr ctx => exact ⟨hx.trans h.1, h.2⟩

lemma CtxLocal.linked {R : Option α → α → List α → Prop}
    (hR : ∀ u v vs, R u v vs → parent v = u.map addr) {x : α} (h : CtxLocal R ctx x)
    (hx : parent x = (above ctx).map addr) : Linked addr parent ctx x := by
  induction ctx generalizing x with
  | nil => exact hx
  | cons fr ctx ih => exact ⟨hx, ih h.2.2 (hR _ _ _ h.1)⟩

variable [DecidableEq A] (addr : α → A)

def get (a : A) (t : Tree α) : Option (Tree α) := find (fun v => addr v = a) t

def set (a : A) (f : Tree α → Tree α) (t : Tree α) : Tree α := modify (fun v => addr v = a) f t

/-- The loop `while (p) { write to *p; p = p->parent; }`; there is no result if a pointer dangles or the loop does not
end within the given number of steps. -/
def climb (parent : α → Option A) (g : α → α) : Nat → Option A → Tree α → Option (Tree α)
  | _, none, t => some t
  | 0, some _, _ => none
  | steps + 1, some a, t =>
    match get addr a t with
    | some n => climb parent g steps (parent n.val) (set addr a (mapVal g) t)
    | none => none

variable {addr}

section

variable (h : Distinct addr (plug ctx t))

include h

lemma Distinct.ctx_ne : ∀ v ∈ ctxNodes ctx, decide (addr v = addr t.val) = false := by
  intro v hv
  have hnd := ((nodes_plug_perm ctx t).map addr).nodup_iff.1 h
  rw [map_append, nodup_append] at hnd
  have hne := hnd.2.2 (addr t.val) (mem_map_of_mem (val_mem_nodes t)) (addr v) (mem_map_of_mem hv)
  simpa using Ne.symm hne

lemma get_plug {a : A} (ha : addr t.val = a) : get addr a (plug ctx t) = some t := by
  subst ha
  rw [get, find_plug h.ctx_ne]
  cases t
  simp [find]

lemma set_plug {a : A} (ha : addr t.val = a) (f : Tree α → Tree α) : set addr a f (plug ctx t) = plug ctx (f t) := by
  subst ha
  rw [set, modify_plug_of_forall h.ctx_ne]
  cases t
  simp [modify]

end

/-- The loop that follows the parent pointers writes to the focus and to every node above it. -/
lemma climb_plug (ha : ∀ v, addr (g v) = addr v)
    (hd : Distinct addr (plug ctx t)) (hl : Linked addr parent ctx t.val) {steps : Nat}
    (hs : ctx.length < steps) :
    climb addr parent g steps (some (addr t.val)) (plug ctx t) =
      some (plug (ctx.map (Frame.mapVal g)) (t.mapVal g)) := by
  induction ctx generalizing t steps with
  | nil =>
    obtain ⟨steps, rfl⟩ := Nat.exists_eq_succ_of_ne_zero (by omega : steps ≠ 0)
    rw [climb, get_plug hd rfl, set_plug hd rfl]
    show climb addr parent g steps (parent t.val) _ = _
    rw [show parent t.val = none from hl]
    cases steps <;> rfl
  | cons fr ctx ih =>
    obtain ⟨steps, rfl⟩ := Nat.exists_eq_succ_of_ne_zero (by omega : steps ≠ 0)
    rw [climb, get_plug hd rfl, set_plug hd rfl]
    show climb addr parent g steps (parent t.val) (plug ctx (fr.fill (t.mapVal g))) = _
    obtain ⟨h1, h2⟩ := hl
    rw [h1]
    rw [length_cons] at hs
    exact ih (t := fr.fill (t.mapVal g)) (hd.plug_mapVal ha) h2 (by omega)

end Pointers

end Tree

end OwnedTree
