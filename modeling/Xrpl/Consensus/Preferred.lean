import Xrpl.Consensus.TrieRuns
import Xrpl.Consensus.Uncommitted

/-!
# `getPreferred` follows the rule one sequence number at a time

The code jumps along a span from one change of the support per sequence number to the next, carries the uncommitted
support along and sorts the children of the nodes it passes.

* `branch_eq`: all strings along the span of a node have its branch support;
* `preferredLoop_spec`: the loop ends where the walk over the multiset ends, and leaves the trie as it was up to the
  order of children;
* `run_getPreferred`: so the preferred ledger is a function of the supported ledgers.
-/

namespace Xrpl.Consensus

open OwnedTree.Tree List Option Multiset Consensus.Span LedgerTrie LedgerData LedgerType

variable {Ledger ID : Type} [LedgerType Ledger ID]

def Span.startPath (s : Span Ledger) : List ID := trace s.ledger_ (s.start_ + 1)

private lemma trace_succ (l : Ledger) (n : Nat) : trace l (n + 1) = trace l n ++ [ancestor l n] := by
  simp [trace, List.range_succ]

lemma trace_getLastD (l : Ledger) {n : Nat} (hn : 1 ≤ n) (g : ID) : (trace l n).getLastD g = ancestor l (n - 1) := by
  obtain ⟨n, rfl⟩ := Nat.exists_eq_add_of_le' hn
  rw [trace_succ, getLastD_concat]
  rfl

lemma Span.startPath_isPrefix (s : Span Ledger) : s.startPath <+: s.label :=
  trace_prefix_of_le rfl s.start_lt_end

variable {v : NodeData Ledger} {ctx : List (Frame (NodeData Ledger))} {vs : List (NodeData Ledger)}

private lemma Span.startPath_eq {c : Node Ledger} (h : Local NodeInv (some v) c) :
    c.val.span.startPath = v.span.label ++ [c.val.span.startID] := by
  have hst := h.here.1.start v rfl
  have ha := h.here.1.agree v rfl
  rw [startPath, trace_succ, hst, ha, startID, hst]
  rfl

variable {x : NodeData Ledger} {n : Node Ledger}

private lemma startPath_not_isPrefix
    (hc : CtxLocal NodeInv ctx x) (hok : NodeOK (above ctx) x vs) :
    ∀ w ∈ ctxNodes ctx, ¬ x.span.startPath <+: w.span.label := by
  induction ctx generalizing x vs with
  | nil => simp [ctxNodes]
  | cons fr ctx ih =>
    obtain ⟨⟨hfr, -⟩, hs, hup⟩ := hc
    have hst : x.span.start_ = fr.val.span.end_ := hok.start _ rfl
    have ha := hok.agree fr.val rfl
    have hlt := fr.val.span.start_lt_end
    intro w hw hp
    rcases mem_append.1 hw with hw | hw
    · have hlen := hp.length_le
      rw [Span.startPath, length_trace, length_label] at hlen
      rcases mem_cons.1 hw with rfl | hw
      · omega
      have hd : ∃ d ∈ fr.left ++ fr.right, w ∈ d.nodes := by
        rw [← nodesList_append] at hw
        exact mem_nodesList.1 hw
      obtain ⟨d, hd, hwd⟩ := hd
      have h1 := label_child (hs d hd) w hwd
      obtain ⟨r, hr⟩ := hp
      rw [← hr, ← hst, getElem?_append_left (by simp [Span.startPath]), Span.startPath,
        trace_getElem? _ (by omega)] at h1
      have hne := hfr.siblings
      rw [List.map_append, List.map_cons, List.nodup_append, List.nodup_cons] at hne
      rcases mem_append.1 hd with hd | hd
      · exact hne.2.2 _ (by simpa using ⟨d, hd, rfl⟩) _ mem_cons_self (some.inj h1).symm
      · apply hne.2.1.1
        rw [show x.span.startID = d.val.span.startID from some.inj h1]
        simpa using ⟨d, hd, rfl⟩
    · refine ih hup hfr w hw (List.IsPrefix.trans ?_ hp)
      exact trace_prefix_of_le (trace_eq_of_le ha.symm (by omega)) (by omega)

lemma mem_held_of_startPath
    (h : Local NodeInv none (plug ctx n)) {s : List ID} (hs : s ∈ held (plug ctx n).nodes)
    (hp : n.val.span.startPath <+: s) : s ∈ held n.nodes := by
  obtain ⟨hl, hc⟩ := local_plug_iff.1 h
  rw [held_plug, mem_add] at hs
  rcases hs with hs | hs
  · exact hs
  · obtain ⟨w, hw, -, rfl⟩ := mem_held.1 hs
    exact absurd hp (startPath_not_isPrefix hc hl.here.1 w hw)

private lemma NodeInv.of_perm {u : Option (NodeData Ledger)} {vs' : List (NodeData Ledger)}
    (h : NodeInv u v vs) (hp : vs'.Perm vs) : NodeInv u v vs' := by
  obtain ⟨hok, hd⟩ := h
  refine ⟨⟨hok.parent, hok.start, hok.agree, hok.root_span, (hp.map _).nodup_iff.2 hok.siblings, ?_⟩, ?_⟩
  · rw [hok.branch, (hp.map _).sum_eq]
  · intro hu ht
    rw [hp.length_eq]
    exact hd hu ht

private lemma LedgerTrie.Inv.of_perm {t : LedgerTrie Ledger} (h : t.Inv)
    {cs cs' : List (Node Ledger)} (hr : t.root = plug ctx (node v cs)) (hp : cs'.Perm cs) :
    ({ t with root := plug ctx (node v cs') } : LedgerTrie Ledger).Inv ∧
      held (plug ctx (node v cs')).nodes = held t.root.nodes := by
  have hns : (plug ctx (node v cs')).nodes.Perm t.root.nodes := by
    rw [hr]
    refine (nodes_plug_perm ctx _).trans (List.Perm.trans ?_ (nodes_plug_perm ctx _).symm)
    rw [nodes_node]
    exact ((nodesList_perm hp).cons v).append_right _
  have hh := held_perm hns
  have hinv := h.nodes
  rw [hr, local_plug_iff, local_node] at hinv
  refine ⟨⟨?_, h.addrs.of_perm (hns.map _), ?_, ?_⟩, hh⟩
  · exact local_plug_iff.2 ⟨local_node.2 ⟨hinv.1.1.of_perm (hp.map _), fun c hc => hinv.1.2 c (hp.mem_iff.1 hc)⟩,
      hinv.2⟩
  · rw [hh]
    exact h.seqSupport
  · rw [hh]
    exact h.total

private lemma ne_nil_of_mem_held {h : List ID} (hh : h ∈ held vs) : h ≠ [] := by
  obtain ⟨v, -, -, rfl⟩ := mem_held.1 hh
  have := v.span.start_lt_end
  rw [← length_pos_iff, length_label]
  omega

namespace LedgerTrie

/-- The loop is at the node `n`, below `ctx`, and the uncommitted support goes no further than it may at that node. -/
structure PreferredState.At (s : PreferredState Ledger) (M : Multiset (List ID)) (L : Nat)
    (ctx : List (Frame (NodeData Ledger))) (n : Node Ledger) : Prop where
  root : s.trie.root = plug ctx n
  curr : s.curr = n.val.addr
  inv : s.trie.Inv
  held_eq : held s.trie.root.nodes = M
  uncommitted : ∃ b, b ≤ max (n.val.span.start_ + 1) L ∧ s.uncommitted = below M b ∧ Remaining M b s.uncommittedIt

variable {M : Multiset (List ID)}

lemma PreferredState.At.get_eq {s : PreferredState Ledger} {L : Nat}
    {n : Node Ledger} (h : s.At M L ctx n) : s.trie.get s.curr = some n := by
  have ha := h.inv.addrs.1
  rw [get, h.root] at *
  exact get_plug ha h.curr.symm

/-- What the loop returns: the tip of a span where the walk ends, and the trie up to the order of children. -/
structure Ends (M : Multiset (List ID)) (q : List ID) (result : SpanTip Ledger ID × LedgerTrie Ledger) : Prop where
  span : ∃ s : Span Ledger, s.tip = result.1 ∧ s.label = q
  inv : result.2.Inv
  held_eq : held result.2.root.nodes = M

variable {t : LedgerTrie Ledger}

private lemma ends_of_span (hinv : t.Inv) (hh : held t.root.nodes = M)
    (s : Span Ledger) : Ends M s.label (s.tip, t) := ⟨⟨s, rfl, rfl⟩, hinv, hh⟩

lemma at_preferredInit (h : t.Inv) (L : Nat) :
    t.preferredInit.At (held t.root.nodes) L [] t.root := by
  refine ⟨rfl, rfl, h, rfl, 0, Nat.zero_le _, ?_, remaining_toList h.seqSupport⟩
  symm
  refine countP_eq_zero.2 fun s hs => ?_
  rw [Nat.le_zero, length_eq_zero_iff]
  exact ne_nil_of_mem_held hs

lemma startPath_root (h : t.Inv) :
    t.root.val.span.startPath = [ledgerID (genesis : Ledger)] := by
  have hst := (h.nodes.here.1.root_span rfl).1
  rw [Span.startPath, hst, ledgerID, seq_genesis, ← ancestor_zero t.root.val.span.ledger_]
  rfl

end LedgerTrie

section

variable [LinearOrder ID] {n : Node Ledger} {cs : List (Node Ledger)} {q : List ID}

lemma branch_eq
    (h : Local NodeInv none (plug ctx n)) (h1 : n.val.span.startPath <+: q)
    (h2 : q <+: n.val.span.label) : branch (held (plug ctx n).nodes) q = n.val.branchSupport := by
  obtain ⟨hl, hc⟩ := local_plug_iff.1 h
  have hin : (held n.nodes).countP (q <+: ·) = (held n.nodes).card := by
    rw [countP_eq_card]
    intro s hs
    obtain ⟨w, hw, -, rfl⟩ := mem_held.1 hs
    exact h2.trans (label_prefix_of_mem hl w hw)
  have ho : (held (ctxNodes ctx)).countP (q <+: ·) = 0 := by
    rw [Multiset.countP_eq_zero]
    intro s hs hq
    obtain ⟨w, hw, -, rfl⟩ := mem_held.1 hs
    exact startPath_not_isPrefix hc hl.here.1 w hw (h1.trans hq)
  rw [branch, held_plug, countP_add, hin, ho, card_held hl, add_zero]

/-! ### The rule along a span and at its end -/

/-- Inside a span there is one way on, and the walk takes it while the branch support exceeds the uncommitted
support. -/
private lemma preferredChild_span
    (h : Local NodeInv none (plug ctx n)) {j : Nat} (hj : n.val.span.start_ + 1 ≤ j) (he : j < n.val.span.end_)
    (L : Nat) :
    preferredChild (held (plug ctx n).nodes) L (trace n.val.span.ledger_ j) =
      if below (held (plug ctx n).nodes) (max j L) < n.val.branchSupport then some (ancestor n.val.span.ledger_ j)
      else none := by
  have hpos : 0 < n.val.branchSupport := by
    obtain ⟨hl, -⟩ := local_plug_iff.1 h
    cases ctx with
    | nil =>
      have := hl.here.1.root_span rfl
      omega
    | cons fr ctx => exact branchSupport_pos hl
  have hst : n.val.span.startPath <+: trace n.val.span.ledger_ j := trace_prefix_of_le rfl hj
  have hlab : trace n.val.span.ledger_ (j + 1) <+: n.val.span.label := trace_prefix_of_le rfl he
  have hbr : branch (held (plug ctx n).nodes) (trace n.val.span.ledger_ j ++ [ancestor n.val.span.ledger_ j]) =
      n.val.branchSupport := by
    rw [← trace_succ]
    exact branch_eq h (hst.trans (trace_prefix_of_le rfl (by omega))) hlab
  have hrkd : ranked (held (plug ctx n).nodes) (trace n.val.span.ledger_ j) = [ancestor n.val.span.ledger_ j] := by
    refine ranked_eq (by simp) (fun x => ?_) (by simp)
    rw [List.mem_singleton, mem_nextIDs]
    constructor
    · intro hx
      subst hx
      exact branch_pos_iff.1 (hbr ▸ hpos)
    intro hx
    obtain ⟨s, hs, hp⟩ := hx
    rw [append_singleton_isPrefix_iff, length_trace] at hp
    obtain ⟨w, hw, -, rfl⟩ := mem_held.1 (mem_held_of_startPath h hs (hst.trans hp.1))
    obtain ⟨r, hr⟩ := label_prefix_of_mem (local_plug_iff.1 h).1 w hw
    have hx := hp.2
    rw [← hr, getElem?_append_left (by simpa using he), Span.label, trace_getElem? _ he] at hx
    exact (some.inj hx).symm
  unfold preferredChild
  rw [hrkd]
  simp only [lead, length_trace]
  congr 1
  simp only [eq_iff_iff]
  omega

section

variable (h : Local NodeInv none (plug ctx (node v cs)))

include h

private lemma branch_child
    {c : Node Ledger} (hc : c ∈ cs) :
    branch (held (plug ctx (node v cs)).nodes) (v.span.label ++ [c.val.span.startID]) = c.val.branchSupport := by
  obtain ⟨l, r, rfl⟩ := append_of_mem hc
  have hl := (local_node.1 (local_plug_iff.1 h).1).2 c hc
  have hp : Local NodeInv none (plug (⟨v, l, r⟩ :: ctx) c) := h
  have := branch_eq hp (prefix_refl _) c.val.span.startPath_isPrefix
  rwa [startPath_eq hl] at this

private lemma mem_nextIDs_label
    {x : ID} :
    x ∈ nextIDs (held (plug ctx (node v cs)).nodes) v.span.label ↔ ∃ c ∈ cs, c.val.span.startID = x := by
  obtain ⟨-, hb⟩ := local_node.1 (local_plug_iff.1 h).1
  rw [mem_nextIDs]
  constructor
  · intro hx
    obtain ⟨s, hs, hp⟩ := hx
    rw [append_singleton_isPrefix_iff, length_label] at hp
    have hin := mem_held_of_startPath h hs (v.span.startPath_isPrefix.trans hp.1)
    obtain ⟨w, hw, -, rfl⟩ := mem_held.1 hin
    rcases mem_cons.1 hw with rfl | hw
    · have := hp.2
      simp at this
    obtain ⟨c, hc, hwc⟩ := mem_nodesList.1 hw
    have := label_child (hb c hc) w hwc
    rw [hp.2] at this
    exact ⟨c, hc, (some.inj this).symm⟩
  · intro hx
    obtain ⟨c, hc, rfl⟩ := hx
    apply branch_pos_iff.1
    rw [branch_child h hc]
    exact branchSupport_pos (hb c hc)

private lemma ranked_label :
    ranked (held (plug ctx (node v cs)).nodes) v.span.label =
      (sortChildren cs).map fun c => c.val.span.startID := by
  have hp : (sortChildren cs).Perm cs := perm_insertionSort _ _
  have hs := (local_plug_iff.1 h).1.here.1.siblings
  rw [List.map_map] at hs
  refine ranked_eq ((hp.map _).nodup_iff.2 hs) (fun x => ?_) ?_
  · rw [mem_nextIDs_label h]
    simp only [List.mem_map, hp.mem_iff]
  rw [pairwise_map]
  have hsrt := pairwise_insertionSort (fun a b : Node Ledger => childKey b ≤ childKey a) cs
  refine hsrt.imp_of_mem fun {a b} ha hb hab => ?_
  have ha' := branch_child h (hp.mem_iff.1 ha)
  have hb' := branch_child h (hp.mem_iff.1 hb)
  unfold Ahead rank
  rw [ha', hb']
  exact hab

variable (htot : (held (plug ctx (node v cs)).nodes).card < 2 ^ 32)

include htot

private lemma margin_eq
    {best : Node Ledger} {others : List (Node Ledger)} (hs : sortChildren cs = best :: others) :
    margin best others = lead (held (plug ctx (node v cs)).nodes) v.span.label
      ((best :: others).map fun c => c.val.span.startID) := by
  have hmem : ∀ c ∈ best :: others, c ∈ cs := by
    intro c hc
    rw [← hs] at hc
    exact (perm_insertionSort _ _).mem_iff.1 hc
  have hb := branch_child h (hmem best (by simp))
  cases others with
  | nil => exact hb.symm
  | cons second others =>
    have hsec := branch_child h (hmem second (by simp))
    have hr := ranked_label h
    have hsrt := Finset.pairwise_sort (nextIDs (held (plug ctx (node v cs)).nodes) v.span.label)
      (Ahead (held (plug ctx (node v cs)).nodes) v.span.label)
    have hle : second.val.branchSupport ≤ best.val.branchSupport := by
      rw [← ranked, hr, hs] at hsrt
      have ha := rel_of_pairwise_cons hsrt mem_cons_self
      have := (Prod.Lex.le_iff.1 ha)
      simp only [rank, ofLex_toLex] at this
      omega
    have hpos := branchSupport_pos ((local_node.1 (local_plug_iff.1 h).1).2 second (hmem second (by simp)))
    have hca : best.val.branchSupport < 2 ^ 32 := by
      rw [← hb]
      exact (countP_le_card _ _).trans_lt htot
    simp only [margin, List.map_cons, lead, uint32Sub, uint32]
    split <;> omega

end

private lemma walksTo_span (h : Local NodeInv none (plug ctx n))
    {L k : Nat} (hk : n.val.span.start_ + 1 ≤ k) (he : k ≤ n.val.span.end_)
    (hc : ∀ j, n.val.span.start_ + 1 ≤ j → j < k →
      below (held (plug ctx n).nodes) (max j L) < n.val.branchSupport)
    (hq : WalksTo (held (plug ctx n).nodes) L (trace n.val.span.ledger_ k) q) :
    WalksTo (held (plug ctx n).nodes) L n.val.span.startPath q := by
  induction k, hk using Nat.le_induction with
  | base => exact hq
  | succ k hk ih =>
    refine ih (by omega) (fun j h1 h2 => hc j h1 (by omega)) (.step (x := ancestor n.val.span.ledger_ k) ?_ ?_)
    · rw [preferredChild_span h hk he, if_pos (hc k hk (by omega))]
    · rwa [← trace_succ]

/-! ### The loop -/

namespace LedgerTrie

/-- A step from the node `n` to one of its children, which is the step the rule makes at the end of the span. -/
structure Descends (M : Multiset (List ID)) (L : Nat) (n : Node Ledger) (s' : PreferredState Ledger)
    (ctx' : List (Frame (NodeData Ledger))) (c : Node Ledger) : Prop where
  at_child : s'.At M L ctx' c
  nodes_lt : c.nodes.length < n.nodes.length
  startPath_eq : c.val.span.startPath = n.val.span.label ++ [c.val.span.startID]
  uncommitted_eq : s'.uncommitted = below M (max n.val.span.end_ L)
  chosen : preferredChild M L n.val.span.label = some c.val.span.startID
  walk : ∀ q, WalksTo M L c.val.span.startPath q → WalksTo M L n.val.span.startPath q

variable {s : PreferredState Ledger} {M : Multiset (List ID)} {L : Nat}

lemma preferredTurn_spec
    (h : s.At M L ctx n) :
    (∃ result q, preferredTurn L s = some (.inl result) ∧ WalksTo M L n.val.span.startPath q ∧ Ends M q result) ∨
      ∃ s' ctx' c, preferredTurn L s = some (.inr s') ∧ Descends M L n s' ctx' c := by
  have hg := h.get_eq
  obtain ⟨hr, hc, hinv, hh, b, hb, hu, hrem⟩ := h
  have hd : Distinct NodeData.addr (plug ctx n) := hr ▸ hinv.addrs.1
  have hl : Local NodeInv none (plug ctx n) := hr ▸ hinv.nodes
  have hM : held (plug ctx n).nodes = M := hr ▸ hh
  have hca : M.card < 2 ^ 32 := hh ▸ hinv.total

  obtain ⟨hu1, hrem1⟩ := addEarlier_spec hca hb hrem
  rw [← hu] at hu1 hrem1
  obtain ⟨it1, hear⟩ : ∃ it1, addEarlier (max (n.val.span.start_ + 1) L) s.uncommitted s.uncommittedIt =
      (below M (max (n.val.span.start_ + 1) L), it1) := ⟨_, Prod.ext hu1 rfl⟩
  rw [hear] at hrem1
  obtain ⟨k, u, it, ha, hk1, hk2, hcom, hs, hf⟩ :=
    advance_spec hca n.val.branchSupport n.val.span.start_lt_end hrem1
  have hw : ∀ q, WalksTo M L (trace n.val.span.ledger_ k) q → WalksTo M L n.val.span.startPath q := by
    intro q hq
    subst hM
    exact walksTo_span hl hk1 hk2 hcom hq
  unfold preferredTurn
  simp only [hg, hear, ha, bind_eq_bind, bind_some]
  rcases Nat.lt_or_eq_of_le hk2 with hlt | rfl
  · -- the branch support no longer exceeds the uncommitted support inside the span
    obtain ⟨pre, hpre, hpre'⟩ := before_eq hk1 hk2
    rw [if_pos hlt, hpre]
    refine .inl ⟨_, pre.label, rfl, hw _ ?_, ends_of_span hinv hh pre⟩
    rw [Span.label, hpre'.2.1, hpre'.2.2]
    refine .stop ?_
    subst hM
    rw [preferredChild_span hl hk1 hlt, if_neg (not_lt.2 (hs hlt))]
  · obtain ⟨rfl, hrem2⟩ := hf rfl
    rw [if_neg (lt_irrefl _)]
    obtain ⟨v, cs⟩ := n
    have hp : (sortChildren cs).Perm cs := perm_insertionSort _ _
    obtain ⟨hinv', hh'⟩ := hinv.of_perm hr hp
    have hset : (s.trie.set s.curr fun n => .node n.val (sortChildren cs)) =
        { s.trie with root := plug ctx (node v (sortChildren cs)) } := by
      rw [set, hr, set_plug hd hc.symm]
      rfl
    have he := ends_of_span hinv' (hh'.trans hh) v.span
    have hrkd := ranked_label hl
    rw [hM] at hrkd
    rw [children_node, val_node, hset]
    cases hso : sortChildren cs with
    | nil =>
      rw [hso] at hrkd he
      have hch : preferredChild M L v.span.label = none := by
        rw [preferredChild, hrkd]
        rfl
      exact .inl ⟨_, _, rfl, hw _ (.stop hch), he⟩
    | cons best others =>
      have hch : preferredChild M L v.span.label =
          if margin best others > below M (max v.span.end_ L) ∨ below M (max v.span.end_ L) = 0
          then some best.val.span.startID else none := by
        rw [margin_eq hl (hM ▸ hca) hso, hM, preferredChild, hrkd, hso, length_label]
        rfl
      rw [hso] at he hinv' hh' hp
      have hbe : Local NodeInv (some v) best :=
        (local_node.1 (local_plug_iff.1 hl).1).2 best (hp.mem_iff.1 mem_cons_self)
      have hst := startPath_eq hbe
      simp only at hch ⊢
      by_cases hco : margin best others > below M (max v.span.end_ L) ∨ below M (max v.span.end_ L) = 0
      · rw [if_pos hco] at hch ⊢
        refine .inr ⟨_, ⟨v, [], others⟩ :: ctx, best, rfl, ⟨?_, ?_, hst, rfl, hch, ?_⟩⟩
        · refine ⟨rfl, rfl, hinv', hh'.trans hh, max v.span.end_ L, ?_, rfl, hrem2⟩
          have : best.val.span.start_ = v.span.end_ := hbe.here.1.start v rfl
          omega
        · have hlen := (nodesList_perm hp).length_eq
          rw [nodesList, length_append] at hlen
          rw [nodes_node, length_cons]
          omega
        · intro q hq
          rw [hst] at hq
          exact hw q (.step hch hq)
      · rw [if_neg hco] at hch ⊢
        exact .inl ⟨_, _, rfl, hw _ (.stop hch), he⟩

lemma preferredLoop_spec
    (h : s.At M L ctx n) {steps : Nat}
    (hs : n.nodes.length ≤ steps) :
    ∃ result q, preferredLoop L steps s = some result ∧ WalksTo M L n.val.span.startPath q ∧ Ends M q result := by
  induction steps generalizing s ctx n with
  | zero =>
    have := length_pos_of_mem n.val_mem_nodes
    omega
  | succ steps ih =>
    rw [preferredLoop]
    rcases preferredTurn_spec h with hend | hn
    · obtain ⟨result, q, ht, hq, he⟩ := hend
      exact ⟨result, q, by rw [ht], hq, he⟩
    obtain ⟨s', ctx', c, ht, hd⟩ := hn
    have hlt := hd.nodes_lt
    obtain ⟨result, q, hl, hq, he⟩ := ih hd.at_child (by omega)
    exact ⟨result, q, by rw [ht]; exact hl, hd.walk q hq, he⟩

/-- `getPreferred` computes the rule over the ledgers that are held, and only sorts children. -/
lemma getPreferred_spec {t : LedgerTrie Ledger} (h : t.Inv) (L : Nat) :
    ∃ tip t', t.getPreferred L = some (tip, t') ∧
      tip.map (fun tip => (tip.seq, tip.id)) =
        naivePreferred (ledgerID (genesis : Ledger)) (held t.root.nodes) L ∧
      t'.Inv ∧ held t'.root.nodes = held t.root.nodes := by
  have hc := card_held h.nodes
  by_cases hemp : t.root.val.branchSupport = 0
  · rw [hemp, card_eq_zero] at hc
    refine ⟨none, t, by simp [getPreferred, empty, hemp], ?_, h, rfl⟩
    rw [naivePreferred, if_pos hc]
    rfl
  · obtain ⟨result, q, hl, hw, he⟩ := preferredLoop_spec (at_preferredInit h L) (le_refl _)
    refine ⟨some result.1, result.2, by simp [getPreferred, empty, hemp, hl], ?_, he.inv, he.held_eq⟩
    rw [startPath_root h] at hw
    have hne : held t.root.nodes ≠ 0 := by
      intro h0
      rw [h0] at hc
      exact hemp hc.symm
    obtain ⟨s, hs, rfl⟩ := he.span
    rw [hw.naivePreferred_eq hne fun s hs => ne_nil_of_mem_held hs, map_some, length_label, Span.label,
      trace_getLastD _ (Nat.one_le_of_lt s.start_lt_end), ← hs]
    rfl

/-- After every run the preferred ledger is the one the rule finds in the supported ledgers, and the same for every
other run that supports the same ledgers. -/
theorem run_getPreferred [DecidableEq ID] {ops : List (TrieOp Ledger)} (h : Admissible ops) (largestIssued : Nat) :
    (∃ t tip t', run ops = some t ∧ t.getPreferred largestIssued = some (tip, t') ∧
      tip.map (fun tip => (tip.seq, tip.id)) =
        naivePreferred (ledgerID (genesis : Ledger)) (supported ops) largestIssued) ∧
    ∀ ops' : List (TrieOp Ledger), Admissible ops' → supported ops' = supported ops →
      (((run ops').bind (·.getPreferred largestIssued)).map fun r => r.1.map fun tip => (tip.seq, tip.id)) =
        ((run ops).bind (·.getPreferred largestIssued)).map fun r => r.1.map fun tip => (tip.seq, tip.id) := by
  have key : ∀ ops : List (TrieOp Ledger), Admissible ops → ∃ t tip t', run ops = some t ∧
      t.getPreferred largestIssued = some (tip, t') ∧ tip.map (fun tip => (tip.seq, tip.id)) =
        naivePreferred (ledgerID (genesis : Ledger)) (supported ops) largestIssued := by
    intro ops h
    obtain ⟨t, hr, hinv, hh⟩ := run_spec h
    obtain ⟨tip, t', hg, ht, -⟩ := getPreferred_spec hinv largestIssued
    exact ⟨t, tip, t', hr, hg, hh ▸ ht⟩
  refine ⟨key ops h, fun ops' h' hs => ?_⟩
  obtain ⟨t1, tip1, t1', hr1, hg1, ht1⟩ := key ops h
  obtain ⟨t2, tip2, t2', hr2, hg2, ht2⟩ := key ops' h'
  simp [hr1, hr2, hg1, hg2, ht1, ht2, hs]

/-- Three validators on one side of a fork and one on the other: the margin exceeds the one that is behind. -/
theorem run_getPreferred_fork :
    let ops : List (TrieOp PathLedger) := [.insert ⟨[1, 2]⟩ 3, .insert ⟨[1, 4, 5]⟩ 1, .insert ⟨[1]⟩ 1]
    Admissible ops ∧ naivePreferred (ledgerID (genesis : PathLedger)) (supported ops) 0 =
      some (2, [1, 2]) := by
  have h : Admissible ([.insert ⟨[1, 2]⟩ 3, .insert ⟨[1, 4, 5]⟩ 1, .insert ⟨[1]⟩ 1] : List (TrieOp PathLedger)) :=
    admissible_of_sum (by decide) (by decide)
  obtain ⟨⟨t, tip, t', hr, hg, ht⟩, -⟩ := run_getPreferred h 0
  refine ⟨h, ht.symm.trans ?_⟩
  have hc : ((run ([.insert ⟨[1, 2]⟩ 3, .insert ⟨[1, 4, 5]⟩ 1, .insert ⟨[1]⟩ 1] : List (TrieOp PathLedger))).bind
      (·.getPreferred 0)).map (fun r => r.1.map fun tip => (tip.seq, tip.id)) = some (some (2, [1, 2])) := by
    decide +kernel
  rw [hr, bind_some, hg] at hc
  exact some.inj hc

end LedgerTrie

end

end Xrpl.Consensus
