import Xrpl.Consensus.TrieInsert

/-!
# Removing support keeps the invariant

`remove` decrements the counters from a node up to the root, and then erases or merges nodes that are no longer
needed, from that node upwards.  Every turn of that loop leaves the node in focus as the only one that may miss
`Dense`, one frame nearer to the root.

* `remove_spec`: `remove` has a result, keeps `Inv`, and takes the ledger away up to `count` times.
-/

namespace Xrpl.Consensus

open OwnedTree.Tree List Multiset NodeData

variable {Ledger ID : Type} [LedgerType Ledger ID]

lemma trace_prefix_of_le {a b : Ledger} {m n : Nat} (h : trace a m = trace b m) (hmn : m ≤ n) : trace a m <+: trace b n := by
  rw [h, trace, trace, prefix_iff_eq_take, ← map_take, length_map, length_range, take_range, Nat.min_eq_left hmn]

lemma trace_getElem? (l : Ledger) {n p : Nat} (h : p < n) : (trace l n)[p]? = some (ancestor l p) := by
  simp [trace, h]

variable {u : Option (NodeData Ledger)} {v : NodeData Ledger} {n : Node Ledger}

lemma label_prefix_of_mem (h : Local NodeInv u n) : ∀ w ∈ n.nodes, n.val.span.label <+: w.span.label := by
  induction h with
  | intro here below ih =>
    rename_i u v cs
    intro w hw
    rcases mem_cons.1 hw with rfl | hw
    · exact prefix_refl _
    obtain ⟨c, hc, hwc⟩ := mem_nodesList.1 hw
    have hok := (below c hc).here.1
    have hst := hok.start v rfl
    have hlt := c.val.span.start_lt_end
    exact (trace_prefix_of_le (hok.agree v rfl).symm (by omega)).trans (ih c hc w hwc)

/-- Below a child, all strings continue that of the parent with the starting id of the child. -/
lemma label_child {c : Node Ledger} (h : Local NodeInv (some v) c) :
    ∀ w ∈ c.nodes, w.span.label[v.span.end_]? = some c.val.span.startID := by
  intro w hw
  have hst := h.here.1.start v rfl
  have hlt := c.val.span.start_lt_end
  obtain ⟨rest, hr⟩ := label_prefix_of_mem h w hw
  have hc : c.val.span.label[v.span.end_]? = some c.val.span.startID := by
    rw [← hst]
    exact trace_getElem? _ hlt
  rw [← hr, getElem?_append_left (by rw [Span.length_label]; omega), hc]

private lemma nodup_labels (h : Local NodeInv u n) : (n.nodes.map fun w => w.span.label).Nodup := by
  induction h with
  | intro here below ih =>
    rename_i u v cs
    rw [nodes_node, List.map_cons, List.nodup_cons]
    constructor
    · intro hmem
      obtain ⟨w, hw, heq⟩ := mem_map.1 hmem
      obtain ⟨c, hc, hwc⟩ := mem_nodesList.1 hw
      have hl := label_child (below c hc) w hwc
      rw [heq] at hl
      simp at hl
    · have hs := here.1.siblings
      clear here
      induction cs with
      | nil => simp [nodesList]
      | cons c cs ihcs =>
        simp only [List.map_cons, List.nodup_cons] at hs
        rw [nodesList, map_append, nodup_append]
        refine ⟨ih c (by simp), ihcs (fun d hd => below d (by simp [hd])) (fun d hd => ih d (by simp [hd])) hs.2, ?_⟩
        intro a ha b hb hab
        obtain ⟨w, hw, rfl⟩ := mem_map.1 ha
        obtain ⟨w', hw', rfl⟩ := mem_map.1 hb
        obtain ⟨d, hd, hwd⟩ := mem_nodesList.1 hw'
        have h1 := label_child (below c (by simp)) w hw
        have h2 := label_child (below d (by simp [hd])) w' hwd
        rw [hab, h2, Option.some.injEq] at h1
        apply hs.1
        rw [← h1]
        simpa using ⟨d, hd, rfl⟩

private lemma count_held [DecidableEq ID] {vs : List (NodeData Ledger)} (h : (vs.map fun w => w.span.label).Nodup)
    (hv : v ∈ vs) : (held vs).count v.span.label = v.tipSupport := by
  induction vs with
  | nil => simp at hv
  | cons w vs ih =>
    rw [List.map_cons, List.nodup_cons] at h
    rw [held_cons, Multiset.count_add, Multiset.count_replicate]
    rcases mem_cons.1 hv with rfl | hv
    · have h0 : (held vs).count v.span.label = 0 := by
        rw [Multiset.count_eq_zero]
        intro hmem
        obtain ⟨w, hw, -, heq⟩ := mem_held.1 hmem
        exact h.1 (heq ▸ mem_map_of_mem hw)
      simp [h0]
    · have hne : v.span.label ≠ w.span.label := by
        intro heq
        exact h.1 (heq ▸ mem_map_of_mem hv)
      rw [if_neg hne.symm, ih h.2 hv, zero_add]

namespace LedgerTrie

/-! ### Erasing and merging -/

variable {n : Node Ledger} {ctx : List (Frame (NodeData Ledger))} {fr : Frame (NodeData Ledger)}
  {cs : List (Node Ledger)} {t : LedgerTrie Ledger} {ledger : Ledger}

private lemma erase_spec {l r : List (Node Ledger)} {p : Nat} (hp : n.val.addr = p)
    (hl : ∀ c ∈ l, c.val.addr ≠ p) : ∃ out, erase p (l ++ n :: r) = some out ∧ out.Perm (l ++ r) := by
  have hi : (l ++ n :: r).findIdx? (fun c => decide (c.val.addr = p)) = some l.length := by
    rw [findIdx?_append, findIdx?_eq_none_iff.2 (by simpa using hl), findIdx?_cons]
    simp [hp]
  rcases eq_nil_or_concat r with rfl | ⟨r, b, rfl⟩
  · refine ⟨l, ?_, by simp⟩
    unfold erase
    rw [hi]
    simp
  · rw [concat_eq_append] at hi ⊢
    have hla : (l ++ n :: (r ++ [b])).getLast? = some b := by
      rw [← cons_append, ← append_assoc, getLast?_concat]
    have hs : (l ++ n :: (r ++ [b])).set l.length b = (l ++ b :: r) ++ [b] := by simp
    refine ⟨l ++ b :: r, ?_, (perm_append_singleton b r).symm.append_left l⟩
    unfold erase
    rw [hi, hla]
    show some ((l ++ n :: (r ++ [b])).set l.length b).dropLast = _
    rw [hs, dropLast_concat]

/-- The focus may miss `Dense`; everything else satisfies the invariant. -/
structure Loose (ctx : List (Frame (NodeData Ledger))) (n : Node Ledger) : Prop where
  ok : NodeOK (above ctx) n.val (n.children.map val)
  below : ∀ c ∈ n.children, Local NodeInv (some n.val) c
  ctx : CtxLocal NodeInv ctx n.val

private lemma Loose.local (h : Loose ctx n)
    (hd : Dense (above ctx) n.val (n.children.map val)) : Local NodeInv none (plug ctx n) := by
  obtain ⟨v, cs⟩ := n
  exact local_plug_iff.2 ⟨local_node.2 ⟨⟨h.ok, hd⟩, h.below⟩, h.ctx⟩

/-- The children `ds` of the node of a frame look to it like those it had with `n` among them, and hold the same
ledgers. -/
structure Exchange (fr : Frame (NodeData Ledger)) (n : Node Ledger) (ds : List (Node Ledger)) : Prop where
  locals : ∀ d ∈ ds, Local NodeInv (some fr.val) d
  ids : (ds.map fun d => d.val.span.startID).Sublist ((fr.left ++ n :: fr.right).map fun d => d.val.span.startID)
  sum : (ds.map fun d => d.val.branchSupport).sum = ((fr.left ++ n :: fr.right).map fun d => d.val.branchSupport).sum
  held : held (nodesList ds) = held (nodesList (fr.left ++ n :: fr.right))
  addrs : ((nodesList ds).map addr).Sublist ((nodesList (fr.left ++ n :: fr.right)).map addr)

variable {ds : List (Node Ledger)} {c : Node Ledger}

private lemma Loose.exchange (h : Loose (fr :: ctx) n) (hx : Exchange fr n ds) (hp : cs.Perm ds) :
    Loose ctx (node fr.val cs) := by
  obtain ⟨⟨hok, -⟩, -, hctx⟩ := h.ctx
  have hv : fr.left.map val ++ n.val :: fr.right.map val = (fr.left ++ n :: fr.right).map val := by simp
  rw [hv] at hok
  refine ⟨⟨hok.parent, hok.start, hok.agree, hok.root_span, ?_, ?_⟩, ?_, hctx⟩
  · have hnd := hok.siblings
    rw [List.map_map] at hnd
    rw [List.map_map]
    exact (hp.map _).nodup_iff.2 (hnd.sublist hx.ids)
  · have hb := hok.branch
    rw [List.map_map] at hb
    rw [children_node, List.map_map, (hp.map _).sum_eq]
    exact hb.trans (congrArg (fr.val.tipSupport + ·) hx.sum.symm)
  · exact fun c hc => hx.locals c (hp.mem_iff.1 hc)

private lemma exchange_erase (h : Loose (fr :: ctx) (node v [])) (ht : v.tipSupport = 0) :
    Exchange fr (node v []) (fr.left ++ fr.right) := by
  have hb : v.branchSupport = 0 := by simpa [ht] using h.ok.branch
  have hs : (fr.left ++ fr.right).Sublist (fr.left ++ node v [] :: fr.right) := (sublist_cons_self _ _).append_left _
  refine ⟨h.ctx.2.1, hs.map _, by simp [hb], ?_, ?_⟩
  · simp [nodesList_append, nodesList, nodes_node, ht]
  · simp only [nodesList_append, List.map_append]
    exact List.Sublist.append_left (sublist_cons_self _ _) _

private lemma local_merge {u : NodeData Ledger} (hv : NodeOK (some u) v [c.val]) (hc : Local NodeInv (some v) c) :
    Local NodeInv (some u) (c.mapVal fun x => { x with span := v.span.merge x.span, parent := some u.addr }) ∧
      (v.span.merge c.val.span).startID = v.span.startID ∧ (v.span.merge c.val.span).label = c.val.span.label := by
  obtain ⟨x, cs⟩ := c
  obtain ⟨⟨hok, hden⟩, hb⟩ := local_node.1 hc
  have hst : x.span.start_ = v.span.end_ := hok.start v rfl
  have ha : trace x.span.ledger_ v.span.end_ = trace v.span.ledger_ v.span.end_ := hok.agree v rfl
  have hvlt := v.span.start_lt_end
  have hx := x.span.start_lt_end
  have hm : v.span.merge x.span = ⟨min v.span.start_ x.span.start_, x.span.end_, x.span.ledger_,
      (min_le_right _ _).trans_lt x.span.start_lt_end, x.span.end_le⟩ := if_pos (by omega)
  have hmin : min v.span.start_ x.span.start_ = v.span.start_ := by omega
  have hl : (v.span.merge x.span).label = x.span.label := by rw [hm]; rfl
  refine ⟨local_node.2 ⟨⟨⟨rfl, ?_, ?_, by simp, hok.siblings, hok.branch⟩, fun _ => hden (by simp)⟩, ?_⟩, ?_, hl⟩
  · intro u' hu'
    show (v.span.merge x.span).start_ = _
    rw [hm]
    show min v.span.start_ x.span.start_ = _
    rw [hmin]
    exact hv.start u' hu'
  · intro u' hu'
    show trace (v.span.merge x.span).ledger_ _ = _
    rw [hm]
    have hle := hv.start u' hu'
    rw [← hv.agree u' hu']
    exact trace_eq_of_le ha (by omega)
  · exact fun d hd => (hb d hd).of_parent fun _ _ hinv => hinv.of_parent rfl hl
  show (v.span.merge x.span).startID = _
  rw [hm]
  show ancestor x.span.ledger_ (min v.span.start_ x.span.start_) = ancestor v.span.ledger_ v.span.start_
  rw [hmin]
  exact trace_eq_iff.1 ha _ hvlt

private lemma exchange_merge (h : Loose (fr :: ctx) (node v [c])) (ht : v.tipSupport = 0) :
    Exchange fr (node v [c]) (fr.left ++
      (c.mapVal fun x => { x with span := v.span.merge x.span, parent := some fr.val.addr }) :: fr.right) := by
  obtain ⟨hl, hid, hlab⟩ := local_merge h.ok (h.below c (by simp))
  have hb : v.branchSupport = c.val.branchSupport := by simpa [ht] using h.ok.branch
  obtain ⟨x, cs⟩ := c
  refine ⟨?_, ?_, ?_, ?_, ?_⟩
  · intro d hd
    rcases mem_append.1 hd with hd | hd
    · exact h.ctx.2.1 d (mem_append_left _ hd)
    · rcases mem_cons.1 hd with rfl | hd
      · exact hl
      · exact h.ctx.2.1 d (mem_append_right _ hd)
  · have hid : (v.span.merge x.span).startID = v.span.startID := hid
    simp [hid]
  · simp [hb]
  · have hlab : (v.span.merge x.span).label = x.span.label := hlab
    simp [nodesList_append, nodesList, nodes_node, mapVal, ht, hlab]
  · simp only [nodesList_append, nodesList, nodes_node, List.map_append, List.append_nil]
    refine List.Sublist.append_left ?_ _
    exact (sublist_cons_self _ _)

private lemma get_of_plug (hr : t.root = plug ctx n) (ha : Allocated t.nextAddr (t.root.nodes.map addr)) :
    t.get n.val.addr = some n := by
  rw [hr] at ha
  show t.root.get _ _ = _
  rw [hr]
  exact get_plug ha.1 rfl

private lemma set_exchange (hr : t.root = plug (fr :: ctx) n) (ha : Allocated t.nextAddr (t.root.nodes.map addr))
    (hx : Exchange fr n ds) (hp : cs.Perm ds) :
    (t.set fr.val.addr fun m => node m.val cs) = { t with root := plug ctx (node fr.val cs) } ∧
      Allocated t.nextAddr ((plug ctx (node fr.val cs)).nodes.map addr) ∧
      held (plug ctx (node fr.val cs)).nodes = held t.root.nodes := by
  rw [hr] at ha
  refine ⟨?_, ha.of_subperm ?_, ?_⟩
  · have hd : Distinct addr (plug ctx (fr.fill n)) := ha.1
    have := set_plug (a := fr.val.addr) hd rfl fun m => node m.val cs
    unfold set
    rw [hr, plug, this]
    rfl
  · refine ((nodes_plug_perm _ _).map _).subperm.trans
      (List.Subperm.trans ?_ ((nodes_plug_perm ctx (fr.fill n)).map _).symm.subperm)
    rw [List.map_append, List.map_append]
    refine (subperm_append_right _).2 ((subperm_cons _).2 ?_)
    exact ((nodesList_perm hp).map _).subperm.trans hx.addrs.subperm
  · rw [hr, plug, held_plug, held_plug, Frame.fill, nodes_node, nodes_node, held_cons, held_cons,
      held_perm (nodesList_perm hp), hx.held]

private lemma compress_turn (hr : t.root = plug (fr :: ctx) (node v cs))
    (ha : Allocated t.nextAddr (t.root.nodes.map addr)) (hloo : Loose (fr :: ctx) (node v cs))
    (htip : v.tipSupport = 0) (steps : Nat) :
    (2 ≤ cs.length ∧ compress (steps + 1) t v.addr = some t) ∨
      ∃ ds out, Exchange fr (node v cs) ds ∧ out.Perm ds ∧ compress (steps + 1) t v.addr =
        compress steps (t.set fr.val.addr fun n => node n.val out) fr.val.addr := by
  have hd : Distinct addr (plug (fr :: ctx) (node v cs)) := hr ▸ ha.1
  have hget : t.get v.addr = some (node v cs) := get_of_plug hr ha
  have hg : t.get fr.val.addr = some (fr.fill (node v cs)) := get_of_plug (n := fr.fill (node v cs)) hr ha
  have hpar : v.parent = some fr.val.addr := hloo.ok.parent
  have hne : v.addr ≠ t.root.val.addr := by
    rw [hr]
    exact Ne.symm (of_decide_eq_false (hd.ctx_ne _ (val_plug_mem fr ctx (node v cs))))
  have hl : ∀ c ∈ fr.left, c.val.addr ≠ v.addr := by
    intro c hc
    have hmem : c.val ∈ ctxNodes (fr :: ctx) := by
      refine mem_append_left _ (mem_cons_of_mem _ (mem_append_left _ ?_))
      exact mem_nodesList.2 ⟨c, hc, val_mem_nodes c⟩
    exact of_decide_eq_false (hd.ctx_ne _ hmem)
  have ht : compress (steps + 1) t v.addr = compress (steps + 1) t v.addr := rfl
  conv_rhs at ht => rw [compress, hget]
  replace ht := ht.trans (if_pos ⟨htip, hne⟩)
  rw [val_node, hpar] at ht
  change _ = (t.get fr.val.addr >>= _) at ht
  rw [hg] at ht
  rcases cs with _ | ⟨c, _ | ⟨d, ds⟩⟩
  · obtain ⟨out, ho, hp⟩ := erase_spec (n := node v []) (p := v.addr) (r := fr.right) rfl hl
    refine .inr ⟨_, out, exchange_erase hloo htip, hp, ht.trans ?_⟩
    show (erase v.addr (fr.left ++ node v [] :: fr.right) >>= _) = _
    rw [ho]
    rfl
  · obtain ⟨out, ho, hp⟩ := erase_spec (n := node v [c]) (p := v.addr) (r := fr.right ++
      [c.mapVal fun x => { x with span := v.span.merge x.span, parent := some fr.val.addr }]) rfl hl
    refine .inr ⟨_, out, exchange_merge hloo htip, hp.trans ((perm_append_singleton _ _).append_left _), ht.trans ?_⟩
    show (erase v.addr ((fr.left ++ node v [c] :: fr.right) ++ [_]) >>= _) = _
    rw [append_assoc, cons_append, ho]
    rfl
  · exact .inl ⟨by simp, ht⟩

private lemma compress_spec (hro : t.root = plug ctx n) (hadr : Allocated t.nextAddr (t.root.nodes.map addr))
    (hl : Loose ctx n) {steps : Nat} (hs : ctx.length < steps) :
    ∃ root, compress steps t n.val.addr = some { t with root := root } ∧ Local NodeInv none root ∧
      Allocated t.nextAddr (root.nodes.map addr) ∧ held root.nodes = held t.root.nodes := by
  -- the loop goes up one frame with every turn that does not end it
  induction ctx generalizing t n steps with
  | nil =>
    obtain ⟨steps, rfl⟩ := Nat.exists_eq_succ_of_ne_zero (by omega : steps ≠ 0)
    refine ⟨t.root, ?_, ?_, hadr, rfl⟩
    · have hr : t.root.val.addr = n.val.addr := by rw [hro]; rfl
      rw [compress, get_of_plug hro hadr]
      exact if_neg fun h => h.2 hr.symm
    · rw [hro]
      exact hl.local fun h => absurd rfl h
  | cons fr ctx ih =>
    obtain ⟨steps, rfl⟩ := Nat.exists_eq_succ_of_ne_zero (by omega : steps ≠ 0)
    obtain ⟨v, cs⟩ := n
    rw [length_cons] at hs
    by_cases htip : v.tipSupport = 0
    · rcases compress_turn hro hadr hl htip steps with ⟨hlen, hst⟩ | ⟨ds, out, hx, hp, ht⟩
      · refine ⟨t.root, hst, ?_, hadr, rfl⟩
        rw [hro]
        exact hl.local fun _ _ => by simpa using hlen
      obtain ⟨hset, hadr', hh⟩ := set_exchange hro hadr hx hp
      obtain ⟨root, hrun, hloc, ha, hh'⟩ := ih (t := { t with root := plug ctx (node fr.val out) }) rfl
        hadr' (hl.exchange hx hp) (show ctx.length < steps by omega)
      exact ⟨root, ht.trans (by rw [hset]; exact hrun), hloc, ha, hh'.trans hh⟩
    · refine ⟨t.root, ?_, ?_, hadr, rfl⟩
      · rw [compress, get_of_plug hro hadr]
        exact if_neg fun h => htip h.1
      · rw [hro]
        exact hl.local fun _ h => absurd h htip

/-! ### The whole operation -/

private lemma decrement_plug (hr : t.root = plug ctx n) (h : t.Inv) {c : Nat} (hc : c ≤ n.val.tipSupport) :
    ∃ n', (∀ m, ({ t with seqSupport := m }.set n.val.addr
          (mapVal fun v => { v with tipSupport := uint32Sub v.tipSupport c })).changeBranchSupport
        n.val.addr (fun b => uint32Sub b c) =
          some ⟨plug (ctx.map (Frame.mapVal (withBranch (· - c)))) n', m, t.nextAddr⟩) ∧
      n'.val.addr = n.val.addr ∧ Loose (ctx.map (Frame.mapVal (withBranch (· - c)))) n' ∧
      Allocated t.nextAddr ((plug (ctx.map (Frame.mapVal (withBranch (· - c)))) n').nodes.map addr) ∧
      held t.root.nodes = held (plug (ctx.map (Frame.mapVal (withBranch (· - c)))) n').nodes +
        Multiset.replicate c n.val.span.label := by
  obtain ⟨v, cs⟩ := n
  have hc : c ≤ v.tipSupport := hc
  have hns := h.nodes
  have ha := h.addrs
  rw [hr] at hns ha
  obtain ⟨hloc, hctx⟩ := local_plug_iff.1 hns
  obtain ⟨⟨hok, -⟩, hbel⟩ := local_node.1 hloc
  have hb := hok.branch
  have hlt : v.branchSupport < 2 ^ 32 := by
    have h1 := (branchSupport_le h.nodes v (by rw [hr]; exact mem_nodes_plug (by simp))).1
    have h2 := card_held h.nodes
    have h3 := h.total
    omega
  have hs : ∀ x, c ≤ x → x < 2 ^ 32 → uint32Sub x c = x - c := by
    intro x h1 h2
    unfold uint32Sub uint32
    omega
  have hl := hctx.linked (fun _ _ _ hinv => hinv.1.parent) hok.parent
  have habv : ∀ w ∈ ctx.map Frame.val, c ≤ w.branchSupport ∧ w.branchSupport < 2 ^ 32 := by
    intro w hw
    have h1 := branchSupport_le_above hctx w hw
    have h2 := (branchSupport_le h.nodes w (by rw [hr]; exact mem_nodes_plug (by simp [hw]))).1
    have h3 := card_held h.nodes
    have h4 := h.total
    simp only [val_node] at h1
    omega
  refine ⟨node { v with tipSupport := v.tipSupport - c, branchSupport := v.branchSupport - c } cs, ?_, rfl, ?_, ?_, ?_⟩
  · intro m
    have hset : ({ t with seqSupport := m }.set v.addr
        (mapVal fun v => { v with tipSupport := uint32Sub v.tipSupport c })).root =
        plug ctx (node { v with tipSupport := v.tipSupport - c } cs) := by
      show t.root.set _ _ _ = _
      rw [hr, set_plug (a := v.addr) ha.1 rfl, mapVal, hs _ hc (by omega)]
    refine changeBranchSupport_plug (g := (· - c)) hset ?_ rfl (hl.congr rfl) ?_
    · exact Distinct.plug_mapVal (g := fun v => { v with tipSupport := v.tipSupport - c }) (fun _ => rfl) ha.1
    intro w hw
    rcases mem_cons.1 hw with rfl | hw
    · exact hs _ (show c ≤ v.branchSupport by omega) hlt
    · exact hs _ (habv w hw).1 (habv w hw).2
  · refine ⟨?_, ?_, ?_⟩
    · have hok' : NodeOK (above ctx) { v with tipSupport := v.tipSupport - c, branchSupport := v.branchSupport - c }
          (cs.map val) := by
        refine ⟨hok.parent, hok.start, hok.agree, hok.root_span, hok.siblings, ?_⟩
        simp only
        omega
      rw [above_map]
      exact hok'.map_parent _
    · exact fun d hd => (hbel d hd).of_parent fun _ _ hinv => hinv.of_parent rfl rfl
    · exact ctxLocal_withBranch (a := c) (b := 0) hctx rfl (by simp only [val_node]; omega) fun w hw => by
        have := habv w hw
        omega
  · refine ha.of_perm ?_
    refine ((nodes_plug_perm _ _).map _).trans (List.Perm.trans ?_ ((nodes_plug_perm _ _).map _).symm)
    rw [map_append, map_append, map_ctxNodes_mapVal (g := withBranch (· - c)) fun _ => rfl]
    rfl
  · have hspl : Multiset.replicate v.tipSupport v.span.label =
        Multiset.replicate (v.tipSupport - c) v.span.label + Multiset.replicate c v.span.label := by
      rw [← Multiset.replicate_add]
      congr 1
      omega
    have hc' : held (ctxNodes (ctx.map (Frame.mapVal (withBranch (· - c))))) = held (ctxNodes ctx) :=
      held_congr (map_ctxNodes_mapVal (g := withBranch (· - c)) (fun _ => rfl) ctx)
    rw [hr, held_plug, held_plug, hc', nodes_node, nodes_node, held_cons, held_cons, hspl]
    simp only [val_node]
    abel

lemma count_of_findByLedgerID_eq_none [DecidableEq ID]
    (h : t.findByLedgerID ledger = none) : (held t.root.nodes).count (history ledger) = 0 := by
  rw [Multiset.count_eq_zero]
  intro hmem
  obtain ⟨v, hv, -, hl⟩ := mem_held.1 hmem
  exact of_decide_eq_false (find_eq_none_iff.1 h v hv) ((label_eq_history_iff _ _).1 hl.symm)

lemma plug_of_findByLedgerID_eq_some [DecidableEq ID] (hinv : t.Inv) (h : t.findByLedgerID ledger = some n) :
    ∃ ctx, t.root = plug ctx n ∧ n.val.span.label = history ledger ∧
      (held t.root.nodes).count (history ledger) = n.val.tipSupport := by
  obtain ⟨hp, ctx, hr⟩ := exists_plug_of_find h
  have hl : n.val.span.label = history ledger := (label_eq_history_iff _ _).2 (of_decide_eq_true hp)
  refine ⟨ctx, hr, hl, ?_⟩
  rw [← hl]
  exact count_held (nodup_labels hinv.nodes) (by rw [hr]; exact mem_nodes_plug (by simp))

private lemma remove_found [DecidableEq ID] (h : t.Inv) (hr : t.root = plug ctx n)
    (hl : n.val.span.label = history ledger)
    (hcnt : (held t.root.nodes).count (history ledger) = n.val.tipSupport) (count : Nat)
    (ht : n.val.tipSupport ≠ 0) :
    ∃ t', removeAt t n ledger count = some (true, t') ∧ t'.Inv ∧
      held t'.root.nodes = held t.root.nodes - Multiset.replicate count (history ledger) := by
  have hlen : (history ledger).length = seq ledger + 1 := length_history ledger
  have hle : n.val.tipSupport ≤ countAt (held t.root.nodes) (seq ledger) := by
    rw [← hcnt]
    exact count_le_countAt _ hlen
  obtain ⟨n', hdec, ha, hloo, hadr, hh⟩ := decrement_plug hr h (min_le_right count n.val.tipSupport)
  have hd : held t.root.nodes - Multiset.replicate count (history ledger) =
      held (plug (ctx.map (Frame.mapVal (withBranch (· - min count n.val.tipSupport)))) n').nodes := by
    have hc := hcnt
    rw [hl] at hh
    rw [hh, Multiset.count_add, Multiset.count_replicate_self] at hc
    rw [hh]
    ext y
    rw [Multiset.count_sub, Multiset.count_add, Multiset.count_replicate, Multiset.count_replicate]
    by_cases hy : history ledger = y
    · subst hy
      simp only [↓reduceIte]
      omega
    · simp [hy]
  rw [hl] at hh
  obtain ⟨m, hm, hcts⟩ := (hh ▸ h.seqSupport).sub hlen (by rw [← hh]; omega) (hh ▸ h.total)
  have hrun := compress_spec (t := ⟨_, m, t.nextAddr⟩) rfl hadr hloo (length_ctx_lt _ n')
  obtain ⟨root, hrun, hloc, hal, hh'⟩ := hrun
  refine ⟨⟨root, m, t.nextAddr⟩, ?_, ⟨hloc, hal, ?_, ?_⟩, ?_⟩
  · show (subSeqSupport t.seqSupport (seq ledger) (min count n.val.tipSupport) >>= _) = _
    rw [hm]
    show (changeBranchSupport (({ t with seqSupport := m } : LedgerTrie Ledger).set n.val.addr _) n.val.addr _ >>= _) = _
    rw [hdec m]
    rw [ha] at hrun
    show (compress _ _ _ >>= _) = _
    rw [hrun]
    rfl
  · rw [hh']
    exact hcts
  · have htot := h.total
    rw [hh, card_add] at htot
    rw [hh']
    show (held (plug _ n').nodes).card < 2 ^ 32
    omega
  · rw [hd]
    exact hh'

/-- `remove` has a result, keeps the invariant and takes the ledger away up to `count` times. -/
lemma remove_spec [DecidableEq ID] (h : t.Inv) (ledger : Ledger) (count : Nat) :
    ∃ t', t.remove ledger count = some (decide (0 < (held t.root.nodes).count (history ledger)), t') ∧ t'.Inv ∧
      held t'.root.nodes = held t.root.nodes - Multiset.replicate count (history ledger) := by
  have hn : (held t.root.nodes).count (history ledger) = 0 →
      held t.root.nodes = held t.root.nodes - Multiset.replicate count (history ledger) := by
    intro h0
    ext y
    rw [Multiset.count_sub, Multiset.count_replicate]
    split
    · rename_i hy
      subst hy
      omega
    · omega
  unfold remove
  rcases hf : t.findByLedgerID ledger with _ | n
  · have h0 := count_of_findByLedgerID_eq_none hf
    exact ⟨t, by simp [h0], h, hn h0⟩
  obtain ⟨ctx, hr, hl, hc⟩ := plug_of_findByLedgerID_eq_some h hf
  by_cases ht : n.val.tipSupport = 0
  · exact ⟨t, by simp [ht, hc], h, hn (hc.trans ht)⟩
  obtain ⟨t', hrun, hinv, hh⟩ := remove_found h hr hl hc count ht
  refine ⟨t', ?_, hinv, hh⟩
  rw [hc, decide_eq_true (Nat.pos_of_ne_zero ht)]
  exact (if_neg ht).trans hrun

end LedgerTrie

end Xrpl.Consensus
