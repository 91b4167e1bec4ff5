import Mathlib.Algebra.Order.BigOperators.Group.List
import Mathlib.Algebra.Order.Ring.Nat
import Xrpl.Consensus.Ancestry

/-!
# The invariant of the ancestry trie

`NodeOK` is what links a node with its parent and its children: the parent pointer, the span that starts where the
parent's ends on the same chain, children that start with different ids, and the sum of the supports.  `Dense` is the
compression: away from the root no node without tip support has less than two children.  `Inv` puts the two together
for a whole trie, with the addresses and the counts per sequence number.

* `held`: the multiset of ledgers, as strings, that a list of nodes supports;
* `Inv.checkInvariants`: the check of the source passes.
-/

namespace Xrpl.Consensus

open OwnedTree OwnedTree.Tree List Option Multiset NodeData

section

variable {Ledger ID : Type} [LedgerType Ledger ID]

/-- A node `v` below `u` and above `vs`. -/
structure NodeOK (u : Option (NodeData Ledger)) (v : NodeData Ledger) (vs : List (NodeData Ledger)) : Prop where
  parent : v.parent = u.map addr
  start : ∀ u' ∈ u, v.span.start_ = u'.span.end_
  agree : ∀ u' ∈ u, trace v.span.ledger_ u'.span.end_ = trace u'.span.ledger_ u'.span.end_
  root_span : u = none → v.span.start_ = 0 ∧ v.span.end_ = 1
  siblings : (vs.map fun c => c.span.startID).Nodup
  branch : v.branchSupport = v.tipSupport + (vs.map branchSupport).sum

/-- A node without tip support can only be the root or a fork. -/
def Dense (u : Option (NodeData Ledger)) (v : NodeData Ledger) (vs : List (NodeData Ledger)) : Prop :=
  u ≠ none → v.tipSupport = 0 → 2 ≤ vs.length

def NodeInv (u : Option (NodeData Ledger)) (v : NodeData Ledger) (vs : List (NodeData Ledger)) : Prop :=
  NodeOK u v vs ∧ Dense u v vs

def held (vs : List (NodeData Ledger)) : Multiset (List ID) :=
  (vs.map fun v => Multiset.replicate v.tipSupport v.span.label).sum

/-- How many of the ledgers in `M` have the sequence number `s`. -/
def countAt (M : Multiset (List ID)) (s : Nat) : Nat := M.countP fun h => h.length = s + 1

/-- The map `m` holds the number of ledgers in `M` with each sequence number, where there are any. -/
def Counts (m : Std.ExtTreeMap Nat Nat) (M : Multiset (List ID)) : Prop :=
  ∀ s, m[s]? = if countAt M s = 0 then none else some (countAt M s)

def Allocated (next : Nat) (addrs : List Nat) : Prop := addrs.Nodup ∧ ∀ a ∈ addrs, a < next

variable {next : Nat} {vs : List (NodeData Ledger)} {s : Nat} {m : Std.ExtTreeMap Nat Nat} {M : Multiset (List ID)}
  {v : NodeData Ledger} {l' : List Nat} {h : List ID} {ws : List (NodeData Ledger)} {count : Nat} {u' : NodeData Ledger}
  {ctx : List (Frame (NodeData Ledger))} {x : NodeData Ledger} {root : Nat}

variable {l : List Nat} {n : Node Ledger} {u : Option (NodeData Ledger)}

lemma Allocated.of_subperm (h : Allocated next l) (hp : l'.Subperm l) :
    Allocated next l' := by
  obtain ⟨m, hm, hs⟩ := hp
  exact ⟨hm.nodup_iff.1 (h.1.sublist hs), fun a ha => h.2 a (hs.subset (hm.mem_iff.2 ha))⟩

lemma Allocated.of_perm (h : Allocated next l) (hp : l'.Perm l) : Allocated next l' := h.of_subperm hp.subperm

lemma Allocated.cons (h : Allocated next l) : Allocated (next + 1) (next :: l) := by
  refine ⟨nodup_cons.2 ⟨fun hmem => ?_, h.1⟩, fun a ha => ?_⟩
  · have := h.2 next hmem
    omega
  rcases mem_cons.1 ha with rfl | ha
  · omega
  · have := h.2 a ha
    omega

structure LedgerTrie.Inv (t : LedgerTrie Ledger) : Prop where
  nodes : Local NodeInv none t.root
  addrs : Allocated t.nextAddr (t.root.nodes.map addr)
  seqSupport : Counts t.seqSupport (held t.root.nodes)
  total : (held t.root.nodes).card < 2 ^ 32

/-! ### The supported ledgers -/

@[simp] lemma held_nil : held ([] : List (NodeData Ledger)) = 0 := rfl

@[simp] lemma held_cons (v : NodeData Ledger) (vs : List (NodeData Ledger)) :
    held (v :: vs) = Multiset.replicate v.tipSupport v.span.label + held vs := by
  simp [held]

@[simp] lemma held_append (vs ws : List (NodeData Ledger)) : held (vs ++ ws) = held vs + held ws := by
  simp [held]

lemma mem_held : h ∈ held vs ↔ ∃ v ∈ vs, v.tipSupport ≠ 0 ∧ h = v.span.label := by
  induction vs with
  | nil => simp
  | cons v vs ih => simp [ih, Multiset.mem_replicate]

lemma held_perm (h : vs.Perm ws) : held vs = held ws := (h.map _).sum_eq

lemma held_congr (h : vs.map (fun v => (v.tipSupport, v.span.label)) = ws.map fun v => (v.tipSupport, v.span.label)) :
    held vs = held ws := by
  have key : ∀ vs : List (NodeData Ledger), held vs =
      ((vs.map fun v => (v.tipSupport, v.span.label)).map fun x => Multiset.replicate x.1 x.2).sum := by
    intro vs
    rw [List.map_map]
    rfl
  rw [key vs, key ws, h]

lemma held_plug (ctx : List (Frame (NodeData Ledger))) (n : Node Ledger) :
    held (plug ctx n).nodes = held n.nodes + held (ctxNodes ctx) := by
  rw [held_perm (nodes_plug_perm ctx n), held_append]

@[simp] lemma countAt_add (M N : Multiset (List ID)) (s : Nat) :
    countAt (M + N) s = countAt M s + countAt N s := countP_add _ _ _

private lemma countAt_replicate (n : Nat) (h : List ID) (s : Nat) :
    countAt (replicate n h) s = if h.length = s + 1 then n else 0 := by
  rw [countAt, ← coe_replicate, coe_countP, countP_replicate]
  simp

private lemma countAt_le_card (M : Multiset (List ID)) (s : Nat) : countAt M s ≤ M.card := countP_le_card _ _

lemma count_le_countAt [DecidableEq ID] (M : Multiset (List ID)) (hs : h.length = s + 1) :
    M.count h ≤ countAt M s := by
  obtain ⟨N, hN⟩ := Multiset.le_iff_exists_add.1 (Multiset.le_count_iff_replicate_le.1 (le_refl (M.count h)))
  have : countAt M s = M.count h + countAt N s := by
    conv_lhs => rw [hN]
    rw [countAt_add, countAt_replicate, if_pos hs]
  omega

lemma uint32_of_lt {n : Nat} (h : n < 2 ^ 32) : uint32 n = n := Nat.mod_eq_of_lt h

private lemma Counts.getD (h : Counts m M) (s : Nat) : m.getD s 0 = countAt M s := by
  rw [Std.ExtTreeMap.getD_eq_getD_getElem?, h s]
  split <;> simp [*]

lemma Counts.add (h : Counts m M) {l : List ID}
    (hl : l.length = s + 1) (hc : 1 ≤ count) (ht : M.card + count < 2 ^ 32) :
    Counts (m.insert s (uint32 (m.getD s 0 + count))) (M + Multiset.replicate count l) := by
  intro s'
  have hle := countAt_le_card M s
  rw [h.getD, uint32_of_lt (by omega), Std.ExtTreeMap.getElem?_insert, countAt_add, countAt_replicate, hl]
  by_cases hs : s = s'
  · subst hs
    simp
    omega
  · simp [hs, h s']

/-- `seqSupport_[s] -= count`, with the entry erased when nothing is left. -/
lemma Counts.sub {l : List ID} (h : Counts m (M + Multiset.replicate count l)) (hl : l.length = s + 1)
    (hpos : 0 < countAt (M + Multiset.replicate count l) s)
    (ht : (M + Multiset.replicate count l).card < 2 ^ 32) :
    ∃ m', LedgerTrie.subSeqSupport m s count = some m' ∧ Counts m' M := by
  have hle := countAt_le_card M s
  rw [card_add] at ht
  have hc : countAt (M + Multiset.replicate count l) s = countAt M s + count := by simp [countAt_replicate, hl]
  have hg : m[s]? = some (countAt M s + count) := by
    rw [h s, hc, if_neg (by omega)]
  have hsub : uint32Sub (countAt M s + count) count = countAt M s := by
    unfold uint32Sub uint32
    omega
  have ho : ∀ s', s ≠ s' → m[s']? = if countAt M s' = 0 then none else some (countAt M s') := by
    intro s' hs
    simpa [countAt_replicate, hl, hs] using h s'
  refine ⟨if countAt M s = 0 then m.erase s else m.insert s (countAt M s), ?_, ?_⟩
  · simp only [LedgerTrie.subSeqSupport, hg, bind_eq_bind, bind_some, hsub]
    rw [if_neg (by omega)]
    split <;> rfl
  intro s'
  by_cases hs : s = s'
  · subst hs
    split <;> simp [*]
  · split <;> simp [Std.ExtTreeMap.getElem?_erase, Std.ExtTreeMap.getElem?_insert, hs, ho s' hs]

lemma card_held (h : Local NodeInv u n) : (held n.nodes).card = n.val.branchSupport := by
  induction h with
  | intro here below ih =>
    rename_i u v cs
    have hl : (held (nodesList cs)).card = ((cs.map val).map branchSupport).sum := by
      clear here below
      induction cs with
      | nil => rfl
      | cons c cs ihcs =>
        rw [nodesList, held_append, card_add, ih c (by simp), ihcs fun d hd => ih d (by simp [hd])]
        simp
    rw [nodes_node, held_cons, card_add, card_replicate, hl]
    exact here.1.branch.symm

lemma branchSupport_pos {u : NodeData Ledger} (h : Local NodeInv (some u) n) : 0 < n.val.branchSupport := by
  induction n using ind generalizing u with
  | h v cs ih =>
    obtain ⟨⟨hok, hd⟩, hb⟩ := local_node.1 h
    show 0 < v.branchSupport
    rw [hok.branch]
    by_cases ht : v.tipSupport = 0
    · have hlen := hd (by simp) ht
      rw [length_map] at hlen
      obtain ⟨c, cs', rfl⟩ := exists_cons_of_length_pos (show 0 < cs.length by omega)
      have := ih c (by simp) (hb c (by simp))
      simp
      omega
    · omega

lemma branchSupport_le (h : Local NodeInv u n) :
    ∀ v ∈ n.nodes, v.branchSupport ≤ n.val.branchSupport ∧ v.tipSupport ≤ v.branchSupport := by
  induction h with
  | intro here below ih =>
    rename_i u v cs
    intro w hw
    have hb := here.1.branch
    rcases mem_cons.1 hw with rfl | hw
    · exact ⟨le_rfl, by omega⟩
    obtain ⟨c, hc, hwc⟩ := mem_nodesList.1 hw
    have h1 := ih c hc w hwc
    have h2 : c.val.branchSupport ≤ ((cs.map val).map branchSupport).sum := le_sum_of_mem (by simpa using ⟨c, hc, rfl⟩)
    show _ ≤ v.branchSupport ∧ _
    omega

private lemma NodeOK.of_parent {u : NodeData Ledger} (hok : NodeOK (some u) v vs)
    (ha : u'.addr = u.addr) (hl : u'.span.label = u.span.label) : NodeOK (some u') v vs := by
  have he : u'.span.end_ = u.span.end_ := by simpa using congrArg List.length hl
  refine ⟨?_, ?_, ?_, by simp, hok.siblings, hok.branch⟩
  · rw [hok.parent, map_some, map_some, ha]
  · intro w hw
    obtain rfl : u' = w := some.inj hw
    rw [he]
    exact hok.start u rfl
  · intro w hw
    obtain rfl : u' = w := some.inj hw
    have htr : trace u'.span.ledger_ u'.span.end_ = trace u.span.ledger_ u.span.end_ := hl
    rw [htr, he]
    exact hok.agree u rfl

lemma NodeInv.of_parent {u : NodeData Ledger} (h : NodeInv (some u) v vs)
    (ha : u'.addr = u.addr) (hl : u'.span.label = u.span.label) : NodeInv (some u') v vs :=
  ⟨h.1.of_parent ha hl, fun _ => h.2 (by simp)⟩

def withBranch (f : Nat → Nat) (v : NodeData Ledger) : NodeData Ledger :=
  { v with branchSupport := f v.branchSupport }

lemma NodeOK.map_parent (h : NodeOK u v vs) (f : Nat → Nat) : NodeOK (u.map (withBranch f)) v vs := by
  cases u with
  | none => exact h
  | some u => exact h.of_parent rfl rfl

lemma NodeInv.map_parent (h : NodeInv u v vs) (f : Nat → Nat) : NodeInv (u.map (withBranch f)) v vs :=
  ⟨h.1.map_parent f, fun hu => h.2 fun h0 => hu (by rw [h0]; rfl)⟩

/-- When the branch support of the focus has changed by as much as `f` changes those above it, the nodes above it
keep their invariant. -/
lemma ctxLocal_withBranch {f : Nat → Nat} {a b : Nat}
    {x' : NodeData Ledger} (h : CtxLocal NodeInv ctx x) (hid : x'.span.startID = x.span.startID)
    (hx : x'.branchSupport + a = x.branchSupport + b)
    (hf : ∀ v ∈ ctx.map Frame.val, f v.branchSupport + a = v.branchSupport + b) :
    CtxLocal NodeInv (ctx.map (Frame.mapVal (withBranch f))) x' := by
  refine h.map (Q := fun x x' => x'.span.startID = x.span.startID ∧ x'.branchSupport + a = x.branchSupport + b)
    ⟨hid, hx⟩ (fun v hv => ⟨rfl, hf v hv⟩) ?_ ?_
  · intro u v l r y y' hy hv hinv
    obtain ⟨hok, hd⟩ := hinv.map_parent f
    refine ⟨⟨hok.parent, hok.start, hok.agree, hok.root_span, ?_, ?_⟩, ?_⟩
    · have := hok.siblings
      simpa [hy.1] using this
    · have h1 := hok.branch
      have h2 : (withBranch f v).tipSupport = v.tipSupport := rfl
      simp only [List.map_append, List.map_cons, List.sum_append, List.sum_cons] at h1 ⊢
      omega
    · intro hu ht
      have := hd hu ht
      simpa using this
  · intro v w ws hinv
    exact hinv.of_parent rfl rfl

lemma branchSupport_le_above
    (h : CtxLocal NodeInv ctx x) : ∀ v ∈ ctx.map Frame.val, x.branchSupport ≤ v.branchSupport := by
  induction ctx generalizing x with
  | nil => simp
  | cons fr ctx ih =>
    have hb := h.1.1.branch
    simp only [List.map_append, List.map_cons, List.sum_append, List.sum_cons] at hb
    intro v hv
    rcases mem_cons.1 hv with rfl | hv
    · omega
    · have := ih h.2.2 v hv
      omega

private lemma checkChildren_iff {parent : Nat} {cs : List (Node Ledger)} :
    LedgerTrie.checkChildren root parent cs = true ↔
      ∀ c ∈ cs, c.val.parent = some parent ∧ LedgerTrie.checkNode root c = true := by
  induction cs with
  | nil => simp [LedgerTrie.checkChildren]
  | cons c cs ih => simp [LedgerTrie.checkChildren, ih]

private lemma checkNode_of_local
    (h : Local NodeInv u n) (hr : u = none → n.val.addr = root) : LedgerTrie.checkNode root n = true := by
  induction h with
  | intro here below ih =>
    rename_i u v cs
    obtain ⟨hok, hd⟩ := here
    have hlen : v.addr ≠ root → v.tipSupport = 0 → 2 ≤ cs.length := by
      intro hne ht
      have hu : u ≠ none := fun hu => hne (hr hu)
      simpa using hd hu ht
    have hch : LedgerTrie.checkChildren root v.addr cs = true := by
      rw [checkChildren_iff]
      intro c hc
      exact ⟨(below c hc).here.1.parent, ih c hc (by simp)⟩
    have hs : v.tipSupport + (cs.map fun c => c.val.branchSupport).sum = v.branchSupport := by
      rw [hok.branch, List.map_map]
      rfl
    rw [LedgerTrie.checkNode, hch, hs]
    simp only [decide_true, Bool.and_true, Bool.not_eq_true', Bool.and_eq_false_iff, decide_eq_false_iff_not]
    by_cases hne : v.addr ≠ root
    · by_cases ht : v.tipSupport = 0
      · right
        omega
      · exact .inl (.inr ht)
    · exact .inl (.inl hne)

private lemma counts_expectedSeqSupport (hc : (held vs).card < 2 ^ 32) :
    Counts (LedgerTrie.expectedSeqSupport vs) (held vs) := by
  induction vs using List.reverseRecOn with
  | nil => exact fun s => by simp [LedgerTrie.expectedSeqSupport, countAt]
  | append_singleton vs v ih =>
    have hh : held (vs ++ [v]) = held vs + Multiset.replicate v.tipSupport v.span.label := by simp
    rw [hh] at hc ⊢
    simp only [card_add, card_replicate] at hc
    have hm := ih (by omega)
    rw [LedgerTrie.expectedSeqSupport, List.foldl_concat, ← LedgerTrie.expectedSeqSupport]
    by_cases ht : v.tipSupport = 0
    · rwa [if_neg (not_not.2 ht), ht, Multiset.replicate_zero, add_zero]
    rw [if_pos ht]
    have hpos := v.span.start_lt_end
    exact hm.add (by rw [Span.length_label]; omega) (by omega) (by omega)

namespace LedgerTrie

lemma Inv.checkInvariants {t : LedgerTrie Ledger} (h : t.Inv) : t.checkInvariants = true := by
  have hs : expectedSeqSupport t.root.nodes = t.seqSupport := by
    apply Std.ExtTreeMap.ext_getElem?
    intro s
    rw [counts_expectedSeqSupport h.total s, h.seqSupport s]
  rw [LedgerTrie.checkInvariants, checkNode_of_local h.nodes fun _ => rfl, hs]
  simp

lemma inv_init : (init : LedgerTrie Ledger).Inv where
  nodes := by
    refine local_node.2 ⟨⟨?_, ?_⟩, by simp⟩
    · exact ⟨rfl, by simp, by simp, fun _ => ⟨rfl, rfl⟩, by simp, rfl⟩
    · intro h
      simp at h
  addrs := by simp [Allocated, init, Tree.nodes, nodesList, ofSpan]
  seqSupport s := by simp [init, Tree.nodes, nodesList, ofSpan, countAt]
  total := by simp [init, Tree.nodes, nodesList, ofSpan]

end LedgerTrie

end

end Xrpl.Consensus
