import Xrpl.Consensus.TrieInvariant

/-!
# Inserting support keeps the invariant

`insert` finds the node with the longest match, may split its span, may add a child for the rest of the ledger, and
increments the support from there up to the root.  Seen from the node that was found, this is one exchange of that
node (`grow` after `takeOver`) and an increment along its context.

* `findFrom_spec`: where the search ends;
* `insert_spec`: `insert` has a result, keeps `Inv`, and adds the ledger to the supported ones.
-/

namespace Xrpl.Consensus

open OwnedTree OwnedTree.Tree List Option Function Multiset Consensus.Span

variable {Ledger ID : Type} [LedgerType Ledger ID] {s : Span Ledger} {pos : Nat}

lemma Span.before_eq (h1 : s.start_ < pos) (h2 : pos ≤ s.end_) :
    ∃ pre, s.before pos = some pre ∧ pre.start_ = s.start_ ∧ pre.end_ = pos ∧ pre.ledger_ = s.ledger_ := by
  have hlo : s.clamp s.start_ = s.start_ := by
    unfold clamp
    omega
  have hhi : s.clamp pos = pos := by
    unfold clamp
    omega
  refine ⟨_, dif_pos (by rw [hlo, hhi]; exact h1), hlo, hhi, rfl⟩

private lemma Span.from_eq (h1 : s.start_ ≤ pos) (h2 : pos < s.end_) :
    ∃ post, s.from_ pos = some post ∧ post.start_ = pos ∧ post.end_ = s.end_ ∧ post.ledger_ = s.ledger_ := by
  have hlo : s.clamp pos = pos := by
    unfold clamp
    omega
  have hhi : s.clamp s.end_ = s.end_ := by
    unfold clamp
    omega
  refine ⟨_, dif_pos (by rw [hlo, hhi]; exact h2), hlo, hhi, rfl⟩

private lemma Span.from_eq_none (h : s.end_ ≤ pos) : s.from_ pos = none := by
  apply dif_neg
  unfold clamp
  omega

namespace LedgerTrie

private lemma findChild_cases (ledger : Ledger) (cs : List (Node Ledger)) (pos : Nat) :
    (findChild ledger cs pos = none ∧ ∀ c ∈ cs, ¬ pos < c.val.span.diff ledger) ∨
      ∃ l c r, cs = l ++ c :: r ∧ pos < c.val.span.diff ledger ∧
        findChild ledger cs pos = some (findFrom ledger c (c.val.span.diff ledger)) := by
  induction cs with
  | nil => exact .inl ⟨rfl, by simp⟩
  | cons c cs ih =>
    rw [findChild]
    by_cases hc : pos < c.val.span.diff ledger
    · exact .inr ⟨[], c, cs, rfl, hc, if_pos hc⟩
    rw [if_neg hc]
    rcases ih with ⟨h1, h2⟩ | ⟨l, d, r, rfl, h2, h3⟩
    · refine .inl ⟨h1, fun d hd => ?_⟩
      rcases mem_cons.1 hd with rfl | hd
      · exact hc
      · exact h2 d hd
    · exact .inr ⟨c :: l, d, r, rfl, h2, h3⟩

/-- The span of `n` starts on the chain of the ledger, and shares its first id with it. -/
structure OnChain (ledger : Ledger) (n : Node Ledger) : Prop where
  start_le : n.val.span.start_ ≤ seq ledger
  agree : trace n.val.span.ledger_ n.val.span.start_ = trace ledger n.val.span.start_
  start_lt : n.val.span.start_ < n.val.span.diff ledger

variable {ledger : Ledger} {u : Option (NodeData Ledger)} {n : Node Ledger} {count : Nat} {t : LedgerTrie Ledger}
  {ctx : List (Frame (NodeData Ledger))}

lemma findFrom_spec (hn : Local NodeInv u n) (hchn : OnChain ledger n) : ∃ ctx s, n = plug ctx s ∧ OnChain ledger s ∧
      findFrom ledger n (n.val.span.diff ledger) = (s.val.addr, s.val.span.diff ledger) ∧
      (s.val.span.diff ledger = s.val.span.end_ →
        ∀ c ∈ s.children, ¬ s.val.span.diff ledger < c.val.span.diff ledger) := by
  induction hn with
  | intro here below ih =>
    rename_i u v cs
    simp only [val_node] at hchn ⊢
    by_cases he : v.span.diff ledger = v.span.end_
    · rw [findFrom, if_pos he]
      rcases findChild_cases ledger cs (v.span.diff ledger) with ⟨h1, h2⟩ | ⟨l, c, r, rfl, h2, h3⟩
      · exact ⟨[], node v cs, rfl, hchn, by rw [h1]; rfl, fun _ => h2⟩
      have hc := (below c (by simp)).here.1
      have hsp := v.span.diff_spec (hchn.start_le.trans (Nat.le_succ _)) hchn.agree
      have hst : c.val.span.start_ = v.span.diff ledger := by rw [he]; exact hc.start v rfl
      have ha : trace c.val.span.ledger_ c.val.span.start_ = trace ledger c.val.span.start_ := by
        rw [hst, ← hsp.2.2.2.1, he]
        exact hc.agree v rfl
      have hlt : c.val.span.start_ < c.val.span.diff ledger := by omega
      have hle := ((c.val.span.diff_spec (by omega) ha).2.2.2.2.1.1 hlt).1
      obtain ⟨ctx, s, hs, hson, hf, hmax⟩ := ih c (by simp) ⟨hle, ha, hlt⟩
      refine ⟨ctx ++ [⟨v, l, r⟩], s, ?_, hson, ?_, hmax⟩
      · rw [plug_append, ← hs]
        rfl
      · rw [h3]
        exact hf
    · rw [findFrom, if_neg he]
      exact ⟨[], node v cs, rfl, hchn, rfl, fun h => absurd h he⟩

/-! ### The exchange of the node that was found -/

/-- A node that a ledger passes through, and leaves at the end of its span on none of its children. -/
structure Ready (ledger : Ledger) (u : Option (NodeData Ledger)) (n : Node Ledger) : Prop where
  ok : NodeOK u n.val (n.children.map val)
  below : ∀ c ∈ n.children, Local NodeInv (some n.val) c
  end_le : n.val.span.end_ ≤ seq ledger + 1
  through : n.val.span.label = trace ledger n.val.span.end_
  apart : n.val.span.end_ ≤ seq ledger → ∀ c ∈ n.children, c.val.span.startID ≠ ancestor ledger n.val.span.end_
  thin : u ≠ none → n.val.tipSupport = 0 → 1 ≤ n.children.length

private lemma ready_of_end
    (hn : Local NodeInv u n) (hchn : OnChain ledger n) (he : n.val.span.diff ledger = n.val.span.end_)
    (hmax : ∀ c ∈ n.children, ¬ n.val.span.diff ledger < c.val.span.diff ledger) : Ready ledger u n := by
  have hs := n.val.span.diff_spec (hchn.start_le.trans (Nat.le_succ _)) hchn.agree
  rw [he] at hs hmax
  refine ⟨hn.here.1, hn.child, hs.2.2.1, hs.2.2.2.1, ?_, ?_⟩
  · intro hle c hc heq
    have hcok := (hn.child c hc).here.1
    have hst := hcok.start _ rfl
    have ha : trace c.val.span.ledger_ c.val.span.start_ = trace ledger c.val.span.start_ := by
      rw [hst, ← hs.2.2.2.1]
      exact hcok.agree _ rfl
    apply hmax c hc
    rw [← hst] at heq hle ⊢
    exact (c.val.span.diff_spec (by omega) ha).2.2.2.2.1.2 ⟨hle, heq⟩
  · intro hu ht
    have := hn.here.2 hu ht
    rw [length_map] at this
    omega

private lemma local_newParent {v w : NodeData Ledger} {c : Node Ledger} (h : Local NodeInv (some v) c)
    (hl : w.span.label = v.span.label) :
    Local NodeInv (some w) (c.mapVal fun x => { x with parent := some w.addr }) := by
  obtain ⟨x, cs⟩ := c
  obtain ⟨hh, hb⟩ := local_node.1 h
  have hw : NodeInv (some { w with addr := v.addr }) x (cs.map val) := hh.of_parent rfl hl
  refine local_node.2 ⟨⟨⟨rfl, ?_, ?_, by simp, hh.1.siblings, hh.1.branch⟩, fun _ => hw.2 (by simp)⟩, ?_⟩
  · intro u' hu'
    obtain rfl := some.inj hu'
    exact hw.1.start { w with addr := v.addr } rfl
  · intro u' hu'
    obtain rfl := some.inj hu'
    exact hw.1.agree { w with addr := v.addr } rfl
  · exact fun d hd => (hb d hd).of_parent fun _ _ hinv => hinv.of_parent rfl rfl

private lemma ready_takeOver (addr : Nat)
    (hn : Local NodeInv u n) (hchn : OnChain ledger n) (hlt : n.val.span.diff ledger < n.val.span.end_)
    {pre post : Span Ledger} (hpre : pre.start_ = n.val.span.start_ ∧
      pre.end_ = n.val.span.diff ledger ∧ pre.ledger_ = n.val.span.ledger_)
    (hp : post.start_ = n.val.span.diff ledger ∧ post.end_ = n.val.span.end_ ∧ post.ledger_ = n.val.span.ledger_) :
    Ready ledger u (takeOver addr pre post n) := by
  obtain ⟨v, cs⟩ := n
  simp only [val_node] at hlt hpre hp
  obtain ⟨⟨hok, hden⟩, hb⟩ := local_node.1 hn
  have hs := v.span.diff_spec (hchn.start_le.trans (Nat.le_succ _)) hchn.agree
  have hst : v.span.start_ < v.span.diff ledger := hchn.start_lt
  have hu : u ≠ none := by
    intro hu
    have := hok.root_span hu
    omega
  have hl : post.label = v.span.label := by rw [label, label, hp.2.1, hp.2.2]
  refine ⟨⟨hok.parent, ?_, ?_, fun h => absurd h hu, by simp [takeOver], ?_⟩, ?_, ?_, ?_, ?_, by simp [takeOver]⟩
  · intro u' hu'
    show pre.start_ = _
    rw [hpre.1]
    exact hok.start u' hu'
  · intro u' hu'
    show trace pre.ledger_ _ = _
    rw [hpre.2.2]
    exact hok.agree u' hu'
  · simp [takeOver]
  · intro c hc
    simp only [takeOver, children_node, List.mem_singleton] at hc
    subst hc
    refine local_node.2 ⟨⟨⟨rfl, ?_, ?_, by simp, ?_, ?_⟩, ?_⟩, ?_⟩
    · intro u' hu'
      obtain rfl := some.inj hu'
      show post.start_ = pre.end_
      rw [hp.1, hpre.2.1]
    · intro u' hu'
      obtain rfl := some.inj hu'
      show trace post.ledger_ pre.end_ = trace pre.ledger_ pre.end_
      rw [hp.2.2, hpre.2.2]
    · have := hok.siblings
      simpa [comp_def] using this
    · have := hok.branch
      simpa [comp_def] using this
    · intro _ ht
      have := hden hu ht
      simpa using this
    · intro d hd
      obtain ⟨c, hc, rfl⟩ := mem_map.1 hd
      exact local_newParent (w := ⟨addr, post, v.tipSupport, v.branchSupport, some v.addr⟩) (hb c hc) hl
  · show pre.end_ ≤ _
    omega
  · show trace pre.ledger_ pre.end_ = trace ledger pre.end_
    rw [hpre.2.1, hpre.2.2]
    exact hs.2.2.2.1
  intro hle c hc
  simp only [takeOver, children_node, List.mem_singleton] at hc
  subst hc
  have hle' : pre.end_ ≤ seq ledger := hle
  show ancestor post.ledger_ post.start_ ≠ ancestor ledger pre.end_
  rw [hp.1, hp.2.2, hpre.2.1]
  rw [hpre.2.1] at hle'
  exact hs.2.2.2.2.2 hlt hle'

/-- What becomes of the node where the ledger leaves the trie: more tip support, or a new child with that support. -/
def grow (count addr : Nat) (newSuffix : Option (Span Ledger)) : Node Ledger → Node Ledger
  | .node v cs =>
    match newSuffix with
    | none => .node { v with tipSupport := v.tipSupport + count, branchSupport := v.branchSupport + count } cs
    | some newSuffix =>
      .node { v with branchSupport := v.branchSupport + count }
        (cs ++ [.node ⟨addr, newSuffix, count, count, some v.addr⟩ []])

private lemma local_grow (h : Ready ledger u n) (hcnt : 1 ≤ count) (addr : Nat) :
    Local NodeInv u (grow count addr ((ofLedger ledger).from_ n.val.span.end_) n) := by
  obtain ⟨v, cs⟩ := n
  obtain ⟨hok, hbel, hle, ht, hap, hth⟩ := h
  simp only [val_node, children_node] at hok hbel hle ht hap hth ⊢
  have hch : ∀ c ∈ cs, ∀ b k, Local NodeInv (some { v with tipSupport := k, branchSupport := b }) c := by
    intro c hc b k
    exact (hbel c hc).of_parent fun _ _ hinv => hinv.of_parent rfl rfl
  by_cases hs : seq ledger < v.span.end_
  · rw [from_eq_none (show (ofLedger ledger).end_ ≤ v.span.end_ from hs)]
    refine local_node.2 ⟨⟨⟨hok.parent, hok.start, hok.agree, hok.root_span, hok.siblings, ?_⟩, ?_⟩, ?_⟩
    · have := hok.branch
      simp only at this ⊢
      omega
    · intro _ htip
      simp only at htip
      omega
    · exact fun c hc => hch c hc _ _
  · obtain ⟨new, hn, hst, he, hl⟩ :=
      from_eq (s := ofLedger ledger) (Nat.zero_le _) (show v.span.end_ < seq ledger + 1 by omega)
    have hl : new.ledger_ = ledger := hl
    rw [hn]
    refine local_node.2 ⟨⟨⟨hok.parent, hok.start, hok.agree, hok.root_span, ?_, ?_⟩, ?_⟩, ?_⟩
    · have hne : new.startID ∉ cs.map fun c => c.val.span.startID := by
        intro hmem
        obtain ⟨c, hc, heq⟩ := mem_map.1 hmem
        apply hap (by omega) c hc
        rw [heq, startID, hst, hl]
      have := hok.siblings
      simp only [List.map_map] at this
      simp only [List.map_append, List.map_map, List.map_cons]
      exact List.nodup_append.2 ⟨this, by simp, by
        intro a ha b hb hab
        obtain rfl := List.mem_singleton.1 hb
        exact hne (hab ▸ ha)⟩
    · have := hok.branch
      simp only [List.map_map, comp_def] at this
      simp only [List.map_append, List.map_map, comp_def, List.map_cons, List.map_nil, val_node,
        List.sum_append, List.sum_cons, List.sum_nil]
      omega
    · intro hu htip
      have := hth hu htip
      simp
      omega
    · intro c hc
      rcases mem_append.1 hc with hc | hc
      · exact hch c hc _ _
      obtain rfl := List.mem_singleton.1 hc
      refine local_node.2 ⟨⟨⟨rfl, ?_, ?_, by simp, by simp, by simp⟩, ?_⟩, by simp⟩
      · intro u' hu'
        obtain rfl := some.inj hu'
        exact hst
      · intro u' hu'
        obtain rfl := some.inj hu'
        rw [hl]
        exact ht.symm
      · intro _ htip
        simp only at htip
        omega

/-! ### The pointers -/

private lemma addrs_takeOver (addr : Nat) (pre post : Span Ledger) (n : Node Ledger) :
    ((takeOver addr pre post n).nodes.map NodeData.addr).Perm (addr :: n.nodes.map NodeData.addr) := by
  obtain ⟨v, cs⟩ := n
  simp only [takeOver, nodes_node, nodesList, List.append_nil, List.map_cons]
  rw [map_nodesList_mapVal (by simp)]
  exact List.Perm.swap _ _ _

private lemma held_takeOver {addr : Nat} {pre post : Span Ledger}
    (hl : post.label = n.val.span.label) : held (takeOver addr pre post n).nodes = held n.nodes := by
  obtain ⟨v, cs⟩ := n
  have hl : post.label = v.span.label := hl
  have hcs : held (nodesList (cs.map (mapVal fun c => { c with parent := some addr }))) = held (nodesList cs) := by
    apply held_congr
    rw [map_nodesList_mapVal (by simp)]
  simp only [takeOver, nodes_node, nodesList, List.append_nil, held_cons, hcs, hl, Multiset.replicate_zero, zero_add]

/-- The loop over the parents, with `g` for what `f` does as long as no counter overflows. -/
lemma changeBranchSupport_plug (hr : t.root = plug ctx n) (hd : Distinct NodeData.addr (plug ctx n)) {p : Nat}
    (hp : n.val.addr = p) (hl : Linked NodeData.addr NodeData.parent ctx n.val) {f g : Nat → Nat}
    (hfg : ∀ v ∈ n.val :: ctx.map Frame.val, f v.branchSupport = g v.branchSupport) :
    t.changeBranchSupport p f =
      some { t with root := plug (ctx.map (Frame.mapVal (withBranch g))) (n.mapVal (withBranch g)) } := by
  subst hp
  have hlen : ctx.length < t.root.nodes.length := by rw [hr]; exact length_ctx_lt ctx n
  have hc := climb_plug (g := withBranch f) (fun _ => rfl) hd hl hlen
  rw [← hr] at hc
  have hctx : ctx.map (Frame.mapVal (withBranch f)) = ctx.map (Frame.mapVal (withBranch g)) := by
    apply map_congr_left
    intro fr hfr
    simp only [Frame.mapVal, withBranch, hfg fr.val (by simpa using .inr ⟨fr, hfr, rfl⟩)]
  have hn : n.mapVal (withBranch f) = n.mapVal (withBranch g) := by
    obtain ⟨v, cs⟩ := n
    simp only [mapVal, withBranch, hfg v (by simp)]
  show (t.root.climb NodeData.addr NodeData.parent (withBranch f) t.root.nodes.length (some n.val.addr) >>= _) = _
  rw [hc, hctx, hn]
  rfl

/-- The second half of `insert`, at the node where the ledger leaves the trie. -/
private lemma addNew_plug (hr : t.root = plug ctx n) (ha : Allocated t.nextAddr (t.root.nodes.map NodeData.addr))
    (hl : Linked NodeData.addr NodeData.parent ctx n.val)
    (hbd : ∀ v ∈ n.val :: ctx.map Frame.val, v.branchSupport + count < 2 ^ 32)
    (ht : n.val.tipSupport ≤ n.val.branchSupport) (newSuffix : Option (Span Ledger)) :
    ∃ next, (((t.addNew n.val.addr newSuffix).1.set (t.addNew n.val.addr newSuffix).2
        (mapVal fun v => { v with tipSupport := uint32 (v.tipSupport + count) })).changeBranchSupport
        (t.addNew n.val.addr newSuffix).2 fun b => uint32 (b + count)) =
      some ⟨plug (ctx.map (Frame.mapVal (withBranch (· + count)))) (grow count t.nextAddr newSuffix n),
        t.seqSupport, next⟩ ∧
      Allocated next ((plug ctx (grow count t.nextAddr newSuffix n)).nodes.map NodeData.addr) := by
  obtain ⟨v, cs⟩ := n
  have hv : v.branchSupport + count < 2 ^ 32 := hbd v (by simp)
  have ht : v.tipSupport ≤ v.branchSupport := ht
  rw [hr] at ha
  cases newSuffix with
  | none =>
    have hs : (t.set v.addr (mapVal fun v => { v with tipSupport := uint32 (v.tipSupport + count) })).root =
        plug ctx (node { v with tipSupport := v.tipSupport + count } cs) := by
      show t.root.set _ _ _ = _
      rw [hr, set_plug (a := v.addr) ha.1 rfl, mapVal, uint32_of_lt (by omega)]
    refine ⟨t.nextAddr, ?_, ha.of_perm (map_nodes_plug_perm (l := []) ctx (List.Perm.refl _))⟩
    refine changeBranchSupport_plug (g := (· + count)) hs ?_ rfl (hl.congr rfl) ?_
    · exact Distinct.plug_mapVal (g := fun v => { v with tipSupport := v.tipSupport + count }) (fun _ => rfl) ha.1
    intro w hw
    rcases mem_cons.1 hw with rfl | hw
    · exact uint32_of_lt hv
    · exact uint32_of_lt (hbd w (mem_cons_of_mem _ hw))
  | some new =>
    -- the new node is below `loc`, which becomes the first frame of its context
    have hp : ((grow count t.nextAddr (some new) (node v cs)).nodes.map NodeData.addr).Perm
        ([t.nextAddr] ++ (node v cs).nodes.map NodeData.addr) := by
      simp only [grow, nodes_node, nodesList_append, List.map_cons, List.map_append]
      exact (List.Perm.cons _ List.perm_append_comm).trans (List.Perm.swap _ _ _)
    have ha' : Allocated (t.nextAddr + 1)
        ((plug ctx (grow count t.nextAddr (some new) (node v cs))).nodes.map NodeData.addr) :=
      ha.cons.of_perm (map_nodes_plug_perm ctx hp)
    have hd : ∀ k b, Distinct NodeData.addr
        (plug (⟨v, cs, []⟩ :: ctx) (node ⟨t.nextAddr, new, k, b, some v.addr⟩ [])) := by
      intro k b
      refine (List.Perm.nodup_iff ?_).2 ha'.1
      refine map_nodes_plug_perm (l := []) ctx (List.Perm.of_eq ?_)
      simp [Frame.fill, grow, nodes_node, nodesList_append, nodesList]
    have hs : ((t.addNew v.addr (some new)).1.set t.nextAddr
        (mapVal fun v => { v with tipSupport := uint32 (v.tipSupport + count) })).root =
        plug (⟨v, cs, []⟩ :: ctx) (node ⟨t.nextAddr, new, count, 0, some v.addr⟩ []) := by
      show (t.root.set _ _ _).set _ _ _ = _
      rw [hr, set_plug (a := v.addr) ha.1 rfl]
      show Tree.set NodeData.addr _ _ (plug (⟨v, cs, []⟩ :: ctx) (node ⟨t.nextAddr, new, 0, 0, some v.addr⟩ [])) = _
      rw [set_plug (a := t.nextAddr) (hd 0 0) rfl, mapVal, uint32_of_lt (show 0 + count < 2 ^ 32 by omega),
        Nat.zero_add]
    refine ⟨t.nextAddr + 1, ?_, ha'⟩
    refine (changeBranchSupport_plug (g := (· + count)) hs (hd _ _) rfl ⟨rfl, hl⟩ ?_).trans ?_
    · intro w hw
      rcases mem_cons.1 hw with rfl | hw
      · exact uint32_of_lt (show 0 + count < 2 ^ 32 by omega)
      · exact uint32_of_lt (hbd w hw)
    · simp only [mapVal, withBranch, Nat.zero_add]
      rfl

/-! ### The whole operation -/

private lemma held_grow (h : Ready ledger u n) (count addr : Nat) :
    held (grow count addr ((ofLedger ledger).from_ n.val.span.end_) n).nodes =
      held n.nodes + Multiset.replicate count (history ledger) := by
  obtain ⟨v, cs⟩ := n
  have hle : v.span.end_ ≤ seq ledger + 1 := h.end_le
  show held (grow count addr ((ofLedger ledger).from_ v.span.end_) (node v cs)).nodes = _
  by_cases hs : seq ledger < v.span.end_
  · have hl : v.span.label = history ledger := by
      rw [show v.span.label = trace ledger v.span.end_ from h.through]
      congr 1
      omega
    rw [from_eq_none (show (ofLedger ledger).end_ ≤ v.span.end_ from hs)]
    simp only [grow, nodes_node, held_cons, Multiset.replicate_add, hl]
    rw [add_right_comm]
  · obtain ⟨new, hn, hst, he, hled⟩ :=
      from_eq (s := ofLedger ledger) (Nat.zero_le _) (show v.span.end_ < seq ledger + 1 by omega)
    have hl : new.label = history ledger := by
      rw [label, he, hled]
      rfl
    rw [hn]
    simp only [grow, nodes_node, nodesList_append, nodesList, held_cons, held_append, held_nil, hl, add_zero]
    rw [add_assoc]

private lemma insert_ready {x : Node Ledger} (hr : t.root = plug ctx n)
    (hadr : Allocated t.nextAddr (t.root.nodes.map NodeData.addr)) (hrdy : Ready ledger (above ctx) n)
    (hctx : CtxLocal NodeInv ctx x.val) (hid : n.val.span.startID = x.val.span.startID)
    (hbr : n.val.branchSupport = x.val.branchSupport) (hcnt : 1 ≤ count)
    (hbd : ∀ v ∈ n.val :: ctx.map Frame.val, v.branchSupport + count < 2 ^ 32)
    (hs : Counts t.seqSupport (held t.root.nodes)) (ht : (held t.root.nodes).card + count < 2 ^ 32) :
    ∃ t', (t.addNew n.val.addr ((ofLedger ledger).from_ n.val.span.end_)).1.addSupport
        (t.addNew n.val.addr ((ofLedger ledger).from_ n.val.span.end_)).2 ledger count = some t' ∧ t'.Inv ∧
      held t'.root.nodes = held t.root.nodes + Multiset.replicate count (history ledger) := by
  have hl : Linked NodeData.addr NodeData.parent ctx n.val := by
    have hx : CtxLocal NodeInv ctx n.val := by
      have := ctxLocal_withBranch (f := id) (a := 0) (b := 0) hctx hid hbr (fun _ _ => rfl)
      have hm : ctx.map (Frame.mapVal (withBranch id)) = ctx := map_id' ctx
      rwa [hm] at this
    exact hx.linked (fun _ _ _ hinv => hinv.1.parent) hrdy.ok.parent
  have htip : n.val.tipSupport ≤ n.val.branchSupport := by
    have := hrdy.ok.branch
    omega
  obtain ⟨next, hrun, ha⟩ := addNew_plug hr hadr hl hbd htip ((ofLedger ledger).from_ n.val.span.end_)
  set n' := grow count t.nextAddr ((ofLedger ledger).from_ n.val.span.end_) n with hn'
  have hh : held (plug (ctx.map (Frame.mapVal (withBranch (· + count)))) n').nodes =
      held t.root.nodes + Multiset.replicate count (history ledger) := by
    have hc : held (ctxNodes (ctx.map (Frame.mapVal (withBranch (· + count))))) = held (ctxNodes ctx) :=
      held_congr (map_ctxNodes_mapVal (g := withBranch (· + count)) (fun _ => rfl) ctx)
    rw [held_plug, hc, held_grow hrdy, hr, held_plug, add_right_comm]
  have hid' : n'.val.span = n.val.span ∧ n'.val.branchSupport = n.val.branchSupport + count := by
    obtain ⟨v, cs⟩ := n
    rw [hn', val_node]
    cases (ofLedger ledger).from_ v.span.end_ <;> exact ⟨rfl, rfl⟩
  refine ⟨_, by rw [addSupport, hrun]; rfl, ⟨?_, ?_, ?_, ?_⟩, hh⟩
  · refine local_plug_iff.2 ⟨?_, ?_⟩
    · rw [above_map]
      exact (local_grow hrdy hcnt t.nextAddr).of_parent fun _ _ hinv => hinv.map_parent _
    · exact ctxLocal_withBranch (a := 0) (b := count) hctx (by rw [hid'.1, hid]) (by omega) fun _ _ => rfl
  · refine ha.of_perm ?_
    refine ((nodes_plug_perm _ _).map _).trans (List.Perm.trans ?_ ((nodes_plug_perm _ _).map _).symm)
    rw [map_append, map_append, map_ctxNodes_mapVal (g := withBranch (· + count)) fun _ => rfl]
  · rw [hh]
    exact hs.add (length_history ledger) hcnt ht
  · rw [hh, card_add, card_replicate]
    exact ht

lemma onChain_root (h : t.Inv) (ledger : Ledger) : OnChain ledger t.root := by
  have h0 := (h.nodes.here.1.root_span rfl).1
  have ha : trace t.root.val.span.ledger_ t.root.val.span.start_ = trace ledger t.root.val.span.start_ := by
    rw [h0]
    rfl
  refine ⟨by omega, ha, ?_⟩
  apply (t.root.val.span.diff_spec (by omega) ha).2.2.2.2.1.2
  refine ⟨by omega, ?_⟩
  rw [startID, h0, LedgerType.ancestor_zero, LedgerType.ancestor_zero ledger]

/-- `insert` has a result, keeps the invariant and adds the ledger to the supported ones. -/
lemma insert_spec (h : t.Inv) (ledger : Ledger) (hc : 1 ≤ count) (ht : (held t.root.nodes).card + count < 2 ^ 32) :
    ∃ t', t.insert ledger count = some t' ∧ t'.Inv ∧
      held t'.root.nodes = held t.root.nodes + Multiset.replicate count (history ledger) := by
  obtain ⟨ctx, n, hp, hchn, hf, hmax⟩ := findFrom_spec h.nodes (onChain_root h ledger)
  have hns := h.nodes
  have ha := h.addrs
  rw [hp] at hns ha
  obtain ⟨hl, hctx⟩ := local_plug_iff.1 hns
  have hbd : ∀ v ∈ n.val :: ctx.map Frame.val, v.branchSupport + count < 2 ^ 32 := by
    intro v hv
    have hmem : v ∈ t.root.nodes := by
      rw [hp]
      exact mem_nodes_plug hv
    have h1 := (branchSupport_le h.nodes v hmem).1
    have h2 := card_held h.nodes
    omega
  have hg : t.get n.val.addr = some n := by
    show t.root.get _ _ = _
    rw [hp]
    exact get_plug ha.1 rfl
  have hs := n.val.span.diff_spec (hchn.start_le.trans (Nat.le_succ _)) hchn.agree
  have hi : t.insert ledger count =
      (t.splitOld n.val.addr (n.val.span.before (n.val.span.diff ledger)) (n.val.span.from_ (n.val.span.diff ledger)))
        >>= fun t1 => (t1.addNew n.val.addr ((ofLedger ledger).from_ (n.val.span.diff ledger))).1.addSupport
          (t1.addNew n.val.addr ((ofLedger ledger).from_ (n.val.span.diff ledger))).2 ledger count := by
    unfold insert find
    rw [hf]
    simp only [hg]
    rfl
  rcases Nat.lt_or_eq_of_le hs.2.1 with hlt | he
  · obtain ⟨pre, hpre, hpre'⟩ := before_eq hchn.start_lt hs.2.1
    obtain ⟨post, hpo, hpo'⟩ := from_eq hs.1 hlt
    have hr := ready_takeOver t.nextAddr hl hchn hlt hpre' hpo'
    have hspl : t.splitOld n.val.addr (some pre) (some post) =
        some ⟨plug ctx (takeOver t.nextAddr pre post n), t.seqSupport, t.nextAddr + 1⟩ := by
      show some (LedgerTrie.mk (t.root.set _ _ _) _ _) = _
      rw [hp, set_plug ha.1 rfl]
      rfl
    have hval : (takeOver t.nextAddr pre post n).val = { n.val with span := pre, tipSupport := 0 } := by
      cases n
      rfl
    have hlab : post.label = n.val.span.label := by rw [label, label, hpo'.2.1, hpo'.2.2]
    have hh : held (plug ctx (takeOver t.nextAddr pre post n)).nodes = held t.root.nodes := by
      rw [held_plug, held_takeOver hlab, hp, held_plug]
    rw [hi, hpre, hpo, hspl]
    have hfi := insert_ready (t := ⟨plug ctx (takeOver t.nextAddr pre post n), t.seqSupport, t.nextAddr + 1⟩)
      (x := n) rfl ?_ hr hctx ?_ ?_ hc ?_ ?_ ?_
    · rw [hval, hpre'.2.1, hh] at hfi
      exact hfi
    · exact ha.cons.of_perm (map_nodes_plug_perm (l := [t.nextAddr]) ctx (addrs_takeOver _ _ _ _))
    · rw [hval]
      show ancestor pre.ledger_ pre.start_ = _
      rw [hpre'.1, hpre'.2.2]
      rfl
    · rw [hval]
    · rw [hval]
      intro v hv
      rcases mem_cons.1 hv with rfl | hv
      · exact hbd n.val (by simp)
      · exact hbd v (mem_cons_of_mem _ hv)
    · rw [hh]
      exact h.seqSupport
    · rw [hh]
      exact ht
  · rw [hi, he, from_eq_none le_rfl]
    exact insert_ready hp h.addrs (ready_of_end hl hchn he (hmax he)) hctx rfl rfl hc hbd h.seqSupport ht

end LedgerTrie

end Xrpl.Consensus
