import Xrpl.Consensus.Preferred

/-!
# What the queries of the trie count

* `tipSupport_spec`: how often a ledger is supported;
* `branchSupport_spec`: how often it or a descendant is.
-/

namespace Xrpl.Consensus

open OwnedTree.Tree

variable {Ledger ID : Type} [LedgerType Ledger ID]

/-- No supported ledger goes through a ledger that leaves the trie where the search for it ends. -/
private lemma not_history_isPrefix {ledger : Ledger} {ctx : List (Frame (NodeData Ledger))} {s : Node Ledger}
    (h : Local NodeInv none (plug ctx s)) (hchn : LedgerTrie.OnChain ledger s)
    (hla : s.val.span.diff ledger ≤ seq ledger)
    (hmax : s.val.span.diff ledger = s.val.span.end_ →
      ∀ c ∈ s.children, ¬ s.val.span.diff ledger < c.val.span.diff ledger) :
    ∀ l ∈ held (plug ctx s).nodes, ¬ history ledger <+: l := by
  intro l hl hp
  have hloc := (local_plug_iff.1 h).1
  obtain ⟨-, hle, -, ha, -, hd⟩ := s.val.span.diff_spec (by have := hchn.start_le; omega) hchn.agree
  have hlt := hchn.start_lt
  have hst : s.val.span.startPath <+: l := (trace_prefix_of_le (trace_eq_of_le ha hlt) (by omega)).trans hp
  obtain ⟨w, hw, -, rfl⟩ := mem_held.1 (mem_held_of_startPath h hl hst)
  -- the ledger and the string `w` agree at the position where the ledger leaves the span
  have hat : w.span.label[s.val.span.diff ledger]? = some (ancestor ledger (s.val.span.diff ledger)) := by
    obtain ⟨r, hr⟩ := hp
    rw [← hr, List.getElem?_append_left (by rw [length_history]; omega), history, trace_getElem? _ (by omega)]
  rcases Nat.lt_or_eq_of_le hle with hin | he
  · obtain ⟨r, hr⟩ := label_prefix_of_mem hloc w hw
    rw [← hr, List.getElem?_append_left (by rwa [Span.length_label]), Span.label, trace_getElem? _ hin] at hat
    exact hd hin hla (Option.some.inj hat)
  rw [he] at hat
  obtain ⟨v, cs⟩ := s
  rcases List.mem_cons.1 hw with rfl | hw
  · simp at hat
  obtain ⟨c, hc, hwc⟩ := mem_nodesList.1 hw
  have hb := (local_node.1 hloc).2 c hc
  have hid := label_child hb w hwc
  simp only [val_node] at *
  rw [hat] at hid
  have hcs : c.val.span.start_ = v.span.end_ := hb.here.1.start v rfl
  have hca : trace c.val.span.ledger_ v.span.end_ = trace ledger v.span.end_ := by
    rw [hb.here.1.agree v rfl, ← he]
    exact ha
  refine hmax he c hc ?_
  rw [he, ← hcs]
  exact (c.val.span.diff_spec (by omega) (by rwa [hcs])).2.2.2.2.1.2
    ⟨by omega, by rw [hcs]; exact (Option.some.inj hid).symm⟩

namespace LedgerTrie

lemma tipSupport_spec [DecidableEq ID] {t : LedgerTrie Ledger} (h : t.Inv) (ledger : Ledger) :
    t.tipSupport ledger = (held t.root.nodes).count (history ledger) := by
  unfold tipSupport
  cases hf : t.findByLedgerID ledger with
  | none => exact (count_of_findByLedgerID_eq_none hf).symm
  | some n =>
    obtain ⟨-, -, -, hc⟩ := plug_of_findByLedgerID_eq_some h hf
    exact hc.symm

lemma branchSupport_spec [LinearOrder ID] [DecidableEq ID] {t : LedgerTrie Ledger} (h : t.Inv) (ledger : Ledger) :
    t.branchSupport ledger = branch (held t.root.nodes) (history ledger) := by
  unfold branchSupport
  cases hf : t.findByLedgerID ledger with
  | some n =>
    obtain ⟨ctx, hr, hlab, -⟩ := plug_of_findByLedgerID_eq_some h hf
    have hns := h.nodes
    rw [hr] at hns ⊢
    rw [← hlab]
    exact (branch_eq hns n.val.span.startPath_isPrefix (List.prefix_refl _)).symm
  | none =>
    obtain ⟨ctx, s, hr, hchn, hs, hmax⟩ := findFrom_spec h.nodes (onChain_root h ledger)
    have hns := h.nodes
    have ha := h.addrs.1
    rw [hr] at hns ha
    have hg : t.get s.val.addr = some s := by
      rw [LedgerTrie.get, hr]
      exact get_plug ha rfl
    obtain ⟨-, hle, hle', hagr, -⟩ := s.val.span.diff_spec (by have := hchn.start_le; omega) hchn.agree
    have hlt := hchn.start_lt
    simp only [find, hs, hg]
    by_cases hp : s.val.span.diff ledger > seq ledger
    · have heq : s.val.span.diff ledger = seq ledger + 1 := by omega
      rw [if_pos ⟨hp, by omega⟩, hr]
      rw [heq] at hagr
      refine (branch_eq hns ?_ ?_).symm
      · exact trace_prefix_of_le (trace_eq_of_le hagr (by omega)) (by omega)
      · exact trace_prefix_of_le hagr.symm (by omega)
    · rw [if_neg fun hc => hp hc.1, hr]
      symm
      refine Nat.eq_zero_of_not_pos fun hpos => ?_
      obtain ⟨l, hl, hpre⟩ := branch_pos_iff.1 hpos
      exact not_history_isPrefix hns hchn (by omega) hmax l hl hpre

end LedgerTrie

end Xrpl.Consensus
