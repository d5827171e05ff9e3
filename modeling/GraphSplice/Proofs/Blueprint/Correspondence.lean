import GraphSplice.Proofs.Blueprint.Reading
import Mathlib.Logic.Equiv.Basic

/-!
Blueprints that correspond. Nodes go to nodes and sockets to sockets, with their owners, and every
link has a counterpart between the corresponding sockets. Then walks, sides and merging go along,
leads correspond by merging and kept links by their components, and the derivations that the two
blueprints describe are alike: what they keep of the host vertices is the same.
-/

namespace GraphSplice

/-- Maps of handles along which two derivations have the same shape; the vertices that come from the
host stay as they are. -/
structure Derivation.Likeness {D : Domain} (d d' : Derivation D) (f : VertexId → VertexId)
    (g : EdgeId → EdgeId) : Prop where
  vertices : Set.BijOn f {v | d.graph.Contains v} {v | d'.graph.Contains v}
  edges : Set.BijOn g {e | e.slot < d.graph.size} {e | e.slot < d'.graph.size}
  createdVertices : ∀ v, d.graph.Contains v → (f v ∈ d'.createdVertices ↔ v ∈ d.createdVertices)
  createdEdges : ∀ e, e.slot < d.graph.size → (g e ∈ d'.createdEdges ↔ e ∈ d.createdEdges)
  vertex : ∀ v record, d.graph.vertex? v = some record →
    ∃ record', d'.graph.vertex? (f v) = some record' ∧ record'.payload = record.payload
  edge : ∀ e record, d.graph.edge? e = some record →
    ∃ record', d'.graph.edge? (g e) = some record' ∧
      (e ∈ d.createdEdges → record'.payload = record.payload) ∧
      record'.ends.Joins (f record.ends.first) (f record.ends.second)
  keptVertex : ∀ v record, d.graph.vertex? v = some record → v ∉ d.createdVertices →
    f v = v ∧ d'.graph.vertex? v = some record

/-- Both links are created or both come from the host, and they lie between corresponding sockets. -/
def Strand.Alike (ψ : Socket → Socket) (x y : Strand) : Prop :=
  y.origin.isCreated = x.origin.isCreated ∧ y.ends.Joins (ψ x.ends.first) (ψ x.ends.second)

theorem Strand.Alike.symm {ψ : Equiv.Perm Socket} {x y : Strand} (h : x.Alike ψ y) :
    y.Alike ψ.symm x := by
  refine ⟨h.1.symm, ?_⟩
  have back := (Ends.Joins.symm (y := x.ends.map ψ) h.2).map ψ.symm
  simpa [Ends.map] using back

namespace Blueprint

variable {b b' : Blueprint} {φ : Equiv.Perm NodeOrigin} {ψ : Equiv.Perm Socket}

/-- Nodes, sockets and links of the second blueprint are those of the first one along the maps;
what comes from the host stands first among the nodes of both, and is mapped to itself. -/
structure Corresponds (φ : Equiv.Perm NodeOrigin) (ψ : Equiv.Perm Socket) (b b' : Blueprint) :
    Prop where
  host : ∀ v, φ (.host v) = .host v
  nodes : ∀ n, φ n ∈ b'.nodes ↔ n ∈ b.nodes
  owner : ∀ s, b'.owner (ψ s) = (b.owner s).map φ
  link : ∀ x ∈ b.links, ∃ y ∈ b'.links, x.Alike ψ y
  onto : ∀ y ∈ b'.links, ∃ x ∈ b.links, x.Alike ψ y
  front : SameFront NodeOrigin.isCreated b.nodes b'.nodes

namespace Corresponds

theorem symm (h : Corresponds φ ψ b b') : Corresponds φ.symm ψ.symm b' b where
  host v := by rw [Equiv.symm_apply_eq, h.host]
  nodes n := by rw [← h.nodes, Equiv.apply_symm_apply]
  owner s := by
    have there := h.owner (ψ.symm s)
    rw [Equiv.apply_symm_apply] at there
    rw [there, Option.map_map]
    simp
  link y hy := by
    obtain ⟨x, hx, alike⟩ := h.onto y hy
    exact ⟨x, hx, alike.symm⟩
  onto x hx := by
    obtain ⟨y, hy, alike⟩ := h.link x hx
    exact ⟨y, hy, alike.symm⟩
  front := h.front.symm

theorem fixed (h : Corresponds φ ψ b b') {n : NodeOrigin} (unmarked : n.isCreated = false) :
    φ n = n := by
  cases n with
  | host v => exact h.host v
  | created p => cases unmarked

theorem linked (h : Corresponds φ ψ b b') {s t : Socket} (linked : b.Linked s t) :
    b'.Linked (ψ s) (ψ t) := by
  obtain ⟨x, hx, joins⟩ := linked
  obtain ⟨y, hy, alike⟩ := h.link x hx
  exact ⟨y, hy, Ends.Joins.trans (y := x.ends.map ψ) alike.2 (joins.map ψ)⟩

theorem linked_iff (h : Corresponds φ ψ b b') {s t : Socket} :
    b'.Linked (ψ s) (ψ t) ↔ b.Linked s t := by
  refine ⟨fun linked => ?_, h.linked⟩
  have back := h.symm.linked linked
  rwa [Equiv.symm_apply_apply, Equiv.symm_apply_apply] at back

theorem walk_iff (h : Corresponds φ ψ b b') {s t : Socket} {n : Nat} :
    Walk b'.Linked n (ψ s) (ψ t) ↔ Walk b.Linked n s t := by
  have steps : ∀ u, True → ∀ t', b'.Linked (ψ u) t' ↔ ∃ v, ψ v = t' ∧ b.Linked u v := by
    intro u _ t'
    constructor
    · intro linked
      refine ⟨ψ.symm t', ψ.apply_symm_apply t', ?_⟩
      rwa [← h.linked_iff, Equiv.apply_symm_apply]
    · rintro ⟨v, rfl, linked⟩
      exact h.linked linked
  rw [Walk.map_iff (fun _ _ _ _ => trivial) steps trivial]
  constructor
  · rintro ⟨u, same, walk⟩
    rwa [← ψ.injective same]
  · exact fun walk => ⟨t, rfl, walk⟩

theorem connected_iff (h : Corresponds φ ψ b b') {s t : Socket} :
    Connected b'.Linked (ψ s) (ψ t) ↔ Connected b.Linked s t :=
  exists_congr fun _ => h.walk_iff

theorem beside_iff (h : Corresponds φ ψ b b') {s t : Socket} :
    b'.Beside (ψ s) (ψ t) ↔ b.Beside s t :=
  exists_congr fun _ => and_congr Iff.rfl h.walk_iff

theorem onOddWalk_iff (h : Corresponds φ ψ b b') {s : Socket} :
    OnOddWalk b'.Linked (ψ s) ↔ OnOddWalk b.Linked s :=
  exists_congr fun _ => and_congr Iff.rfl h.walk_iff

theorem odd (h : Corresponds φ ψ b b') (odd : b.Odd) : b'.Odd := by
  obtain ⟨s, odd⟩ := odd
  exact ⟨_, h.onOddWalk_iff.mpr odd⟩

theorem odd_iff (h : Corresponds φ ψ b b') : b'.Odd ↔ b.Odd := ⟨h.symm.odd, h.odd⟩

/-! ## Merging -/

theorem meets (h : Corresponds φ ψ b b') {m n : NodeOrigin} (meets : b.Meets m n) :
    b'.Meets (φ m) (φ n) := by
  obtain ⟨s, t, hs, ht, k, even, walk, shortest⟩ := meets
  refine ⟨ψ s, ψ t, ?_, ?_, k, even, h.walk_iff.mpr walk, ?_⟩
  · rw [h.owner, hs]
    rfl
  · rw [h.owner, ht]
    rfl
  · exact fun i less shorter => shortest i less (h.walk_iff.mp shorter)

theorem merged (h : Corresponds φ ψ b b') {m n : NodeOrigin} (merged : b.Merged m n) :
    b'.Merged (φ m) (φ n) := by
  induction merged with
  | rel m n meets => exact .rel _ _ (h.meets meets)
  | refl m => exact .refl _
  | symm m n _ ih => exact ih.symm
  | trans l m n _ _ ih ih' => exact ih.trans _ _ _ ih'

theorem merged_iff (h : Corresponds φ ψ b b') {m n : NodeOrigin} :
    b'.Merged (φ m) (φ n) ↔ b.Merged m n := by
  refine ⟨fun merged => ?_, h.merged⟩
  have back := h.symm.merged merged
  rwa [Equiv.symm_apply_apply, Equiv.symm_apply_apply] at back

end Corresponds

theorem exists_host_of_isCreated_eq_false {x : Strand} (unmarked : x.origin.isCreated = false) :
    ∃ e, x.origin = .host e := by
  cases origin : x.origin with
  | host e => exact ⟨e, rfl⟩
  | created p =>
    rw [origin] at unmarked
    cases unmarked

/-- Two blueprints that correspond, with a choice of links of each. -/
structure Counterparts {D : Domain} (host : Host D) (φ : Equiv.Perm NodeOrigin)
    (ψ : Equiv.Perm Socket) (b b' : Blueprint) (chosen chosen' : List Strand) : Prop where
  corresponds : Corresponds φ ψ b b'
  grounded : b.Grounded host
  grounded' : b'.Grounded host
  balanced : ¬ b.Odd
  selects : b.Selects chosen
  selects' : b'.Selects chosen'

namespace Counterparts

variable {D : Domain} {host : Host D} {chosen chosen' : List Strand}

theorem balanced' (t : Counterparts host φ ψ b b' chosen chosen') : ¬ b'.Odd :=
  fun odd => t.balanced (t.corresponds.odd_iff.mp odd)

theorem symm (t : Counterparts host φ ψ b b' chosen chosen') :
    Counterparts host φ.symm ψ.symm b' b chosen' chosen :=
  ⟨t.corresponds.symm, t.grounded', t.grounded, t.balanced', t.selects', t.selects⟩

/-! ## Leads -/

theorem leads_of_leads (t : Counterparts host φ ψ b b' chosen chosen') {n : NodeOrigin}
    (hn : n ∈ b.nodes) (unmarked : n.isCreated = false) (leads : b.Leads n) : b'.Leads n := by
  have front := t.corresponds.front
  have hn' := front.mem hn unmarked
  intro m hm merged
  cases mark : m.isCreated with
  | true => exact front.symm.idxOf_le_of_marked hn' hm unmarked mark
  | false =>
    have inside := front.symm.mem hm mark
    rw [front.idxOf_eq t.grounded'.nodes hn unmarked, front.idxOf_eq t.grounded'.nodes inside mark]
    apply leads m inside
    apply t.corresponds.merged_iff.mp
    rw [t.corresponds.fixed mark, t.corresponds.fixed unmarked]
    exact merged

theorem leads_iff (t : Counterparts host φ ψ b b' chosen chosen') {n : NodeOrigin}
    (hn : n ∈ b.nodes) (unmarked : n.isCreated = false) : b.Leads n ↔ b'.Leads n :=
  ⟨t.leads_of_leads hn unmarked,
    t.symm.leads_of_leads (t.corresponds.front.mem hn unmarked) unmarked⟩

/-- The leads from the host are the same, and come first. -/
theorem sameFront_leads (t : Counterparts host φ ψ b b' chosen chosen') :
    SameFront NodeOrigin.isCreated b.leads b'.leads := by
  apply t.corresponds.front.filter
  intro n hn unmarked
  exact decide_eq_decide.mpr (t.leads_iff hn unmarked)

theorem exists_lead (t : Counterparts host φ ψ b b' chosen chosen') {n : NodeOrigin}
    (hn : n ∈ b.leads) : ∃ m ∈ b'.leads, b'.Merged (φ n) m := by
  have inside := (t.corresponds.nodes n).mpr (mem_leads_iff.mp hn).1
  obtain ⟨m, hm, merged⟩ := Blueprint.exists_lead inside
  exact ⟨m, hm, merged.symm⟩

theorem merged_symm_iff (t : Counterparts host φ ψ b b' chosen chosen') {n m : NodeOrigin} :
    b.Merged (φ.symm m) n ↔ b'.Merged (φ n) m := by
  rw [← t.corresponds.merged_iff, Equiv.apply_symm_apply]
  exact ⟨Relation.EqvGen.symm _ _, Relation.EqvGen.symm _ _⟩

theorem lead_of_host (t : Counterparts host φ ψ b b' chosen chosen') {n m : NodeOrigin}
    (hn : n ∈ b.leads) (hm : m ∈ b'.leads) (merged : b'.Merged (φ n) m)
    (unmarked : n.isCreated = false) : m = n := by
  rw [t.corresponds.fixed unmarked] at merged
  exact (lead_unique (t.sameFront_leads.mem hn unmarked) hm merged).symm

theorem isCreated_of_lead (t : Counterparts host φ ψ b b' chosen chosen') {n m : NodeOrigin}
    (hn : n ∈ b.leads) (hm : m ∈ b'.leads) (merged : b'.Merged (φ n) m) :
    m.isCreated = n.isCreated := by
  cases unmarked : n.isCreated with
  | false => rw [t.lead_of_host hn hm merged unmarked, unmarked]
  | true =>
    cases mark : m.isCreated with
    | true => rfl
    | false =>
      rw [t.symm.lead_of_host hm hn (t.merged_symm_iff.mpr merged) mark, mark] at unmarked
      cases unmarked

/-- A map of places along which leads correspond. -/
def LeadMap (φ : Equiv.Perm NodeOrigin) (b b' : Blueprint) (f : Nat → Nat) : Prop :=
  Set.BijOn f {i | i < b.leads.length} {j | j < b'.leads.length} ∧
    ∀ (i : Nat) (n : NodeOrigin), b.leads[i]? = some n →
      ∃ m, b'.leads[f i]? = some m ∧ b'.Merged (φ n) m

theorem exists_leadMap (t : Counterparts host φ ψ b b' chosen chosen') :
    ∃ f, LeadMap φ b b' f := by
  apply exists_bijOn_places (nodup_leads t.grounded) (nodup_leads t.grounded')
  · exact fun n hn => t.exists_lead hn
  · intro m hm
    obtain ⟨n, hn, merged⟩ := t.symm.exists_lead hm
    exact ⟨n, hn, t.merged_symm_iff.mp merged⟩
  · intro n _ m hm m' hm' first second
    exact lead_unique hm hm' (first.symm.trans _ _ _ second)
  · intro n hn n' hn' m _ first second
    exact lead_unique hn hn' (t.corresponds.merged_iff.mp (first.trans _ _ _ second.symm))

theorem LeadMap.fixed (t : Counterparts host φ ψ b b' chosen chosen') {f : Nat → Nat}
    (map : LeadMap φ b b' f) {i : Nat} {n : NodeOrigin} (found : b.leads[i]? = some n)
    (unmarked : n.isCreated = false) : f i = i ∧ b'.leads[i]? = some n := by
  have there := t.sameFront_leads.getElem? found unmarked
  refine ⟨?_, there⟩
  obtain ⟨m, found', merged⟩ := map.2 i n found
  have same := t.lead_of_host (List.mem_of_getElem? found) (List.mem_of_getElem? found') merged
    unmarked
  rw [same] at found'
  obtain ⟨inside, -⟩ := List.getElem?_eq_some_iff.mp found'
  exact (List.getElem?_inj inside (nodup_leads t.grounded')).mp (found'.trans there.symm)

/-- The vertex of a socket goes along with the leads. -/
theorem LeadMap.vertexAt (t : Counterparts host φ ψ b b' chosen chosen') {f : Nat → Nat}
    (map : LeadMap φ b b' f) {s : Socket} (owned : (b.owner s).isSome = true) :
    b'.vertexAt (ψ s) = ⟨f (b.vertexAt s).slot⟩ := by
  obtain ⟨n, owns⟩ := Option.isSome_iff_exists.mp owned
  have owns' : b'.owner (ψ s) = some (φ n) := by
    rw [t.corresponds.owner, owns]
    rfl
  obtain ⟨m, lead, merged⟩ := lead_at_vertexAt owns (t.grounded.owner s n owns)
  obtain ⟨m', lead', merged'⟩ := lead_at_vertexAt owns' (t.grounded'.owner _ _ owns')
  obtain ⟨m'', lead'', merged''⟩ := map.2 _ m lead
  have related := t.corresponds.merged merged
  have same : m' = m'' := lead_unique (List.mem_of_getElem? lead') (List.mem_of_getElem? lead'')
    ((merged'.trans _ _ _ related.symm).trans _ _ _ merged'')
  rw [← same] at lead''
  apply Handle.ext_slot
  obtain ⟨inside, -⟩ := List.getElem?_eq_some_iff.mp lead'
  exact (List.getElem?_inj inside (nodup_leads t.grounded')).mp (lead'.trans lead''.symm)

theorem vertexAt_iff (t : Counterparts host φ ψ b b' chosen chosen') {s s' : Socket}
    (owned : (b.owner s).isSome = true) (owned' : (b.owner s').isSome = true) :
    b'.vertexAt (ψ s) = b'.vertexAt (ψ s') ↔ b.vertexAt s = b.vertexAt s' := by
  obtain ⟨n, owns⟩ := Option.isSome_iff_exists.mp owned
  obtain ⟨n', owns'⟩ := Option.isSome_iff_exists.mp owned'
  have there : b'.owner (ψ s) = some (φ n) := by
    rw [t.corresponds.owner, owns]
    rfl
  have there' : b'.owner (ψ s') = some (φ n') := by
    rw [t.corresponds.owner, owns']
    rfl
  rw [vertexAt_eq_iff t.grounded' there there', vertexAt_eq_iff t.grounded owns owns',
    t.corresponds.merged_iff]

/-! ## Kept links -/

/-- The second link is in the component that corresponds to that of the first one. -/
def Facing (ψ : Equiv.Perm Socket) (b' : Blueprint) (x y : Strand) : Prop :=
  Connected b'.Linked (ψ x.ends.first) y.ends.first

theorem Facing.trans {x y z : Strand} (facing : Facing ψ b' x y) (same : b'.SameComponent y z) :
    Facing ψ b' x z :=
  Connected.trans facing same

theorem Facing.sameComponent {x y z : Strand} (facing : Facing ψ b' x y)
    (facing' : Facing ψ b' x z) : b'.SameComponent y z :=
  Connected.trans (Connected.symm Linked.symm facing) facing'

theorem facing_of_alike {x y : Strand} (hy : y ∈ b'.links) (alike : x.Alike ψ y) :
    Facing ψ b' x y := by
  rcases alike.2 with same | same
  · unfold Facing
    rw [same]
    exact .refl _
  · have linked : b'.Linked (ψ x.ends.first) (ψ x.ends.second) := ⟨y, hy, alike.2⟩
    unfold Facing
    rw [same]
    exact .single linked

theorem facing_symm_iff (t : Counterparts host φ ψ b b' chosen chosen') {x y : Strand} :
    Facing ψ.symm b y x ↔ Facing ψ b' x y := by
  unfold Facing
  rw [← t.corresponds.connected_iff, Equiv.apply_symm_apply]
  exact ⟨Connected.symm Linked.symm, Connected.symm Linked.symm⟩

/-- The counterpart of a host link is the host link between the corresponding sockets. -/
theorem link_of_host (t : Counterparts host φ ψ b b' chosen chosen') {x y : Strand}
    (hx : x ∈ chosen) (hy : y ∈ chosen') (facing : Facing ψ b' x y)
    (unmarked : x.origin.isCreated = false) : x.Alike ψ y := by
  obtain ⟨z, hz, alike⟩ := t.corresponds.link x (t.selects.sublist.subset hx)
  obtain ⟨e, origin⟩ := exists_host_of_isCreated_eq_false (alike.1.trans unmarked)
  have same : y = z := (t.selects'.exists_unique z hz).unique
    ⟨hy, (facing_of_alike hz alike).sameComponent facing⟩
    ⟨t.selects'.host z hz e origin, .refl z⟩
  exact same ▸ alike

theorem isCreated_of_link (t : Counterparts host φ ψ b b' chosen chosen') {x y : Strand}
    (hx : x ∈ chosen) (hy : y ∈ chosen') (facing : Facing ψ b' x y) :
    y.origin.isCreated = x.origin.isCreated := by
  cases unmarked : x.origin.isCreated with
  | false => exact (t.link_of_host hx hy facing unmarked).1.trans unmarked
  | true =>
    cases mark : y.origin.isCreated with
    | true => rfl
    | false =>
      rw [(t.symm.link_of_host hy hx (t.facing_symm_iff.mpr facing) mark).1, mark] at unmarked
      cases unmarked

/-- A link joins the vertices that correspond to those of its counterparts. -/
theorem joins_of_link (t : Counterparts host φ ψ b b' chosen chosen') {x y : Strand}
    (hx : x ∈ b.links) (hy : y ∈ b'.links) (facing : Facing ψ b' x y) :
    (b'.vertexEnds y).Joins (b'.vertexAt (ψ x.ends.first)) (b'.vertexAt (ψ x.ends.second)) := by
  obtain ⟨z, hz, alike⟩ := t.corresponds.link x hx
  have across := joins_of_sameComponent t.grounded' t.balanced' hz hy
    ((facing_of_alike hz alike).sameComponent facing)
  exact Ends.Joins.trans (y := b'.vertexEnds z) across (alike.2.map b'.vertexAt)

theorem exists_link (t : Counterparts host φ ψ b b' chosen chosen') {x : Strand}
    (hx : x ∈ b.kept chosen) : ∃ y ∈ b'.kept chosen', Facing ψ b' x y := by
  obtain ⟨inChosen, survives⟩ := mem_kept_iff.mp hx
  have inside := t.selects.sublist.subset inChosen
  obtain ⟨z, hz, alike⟩ := t.corresponds.link x inside
  obtain ⟨y, ⟨hy, same⟩, -⟩ := t.selects'.exists_unique z hz
  have facing := (facing_of_alike hz alike).trans same
  refine ⟨y, mem_kept_iff.mpr ⟨hy, ?_⟩, facing⟩
  cases mark : y.origin.isCreated with
  | false => exact .inl (exists_host_of_isCreated_eq_false mark)
  | true =>
    rw [t.isCreated_of_link inChosen hy facing] at mark
    rcases survives with ⟨e, origin⟩ | apart
    · rw [origin] at mark
      cases mark
    · right
      intro loop
      apply apart
      apply (t.vertexAt_iff (t.grounded.ends x inside .first)
        (t.grounded.ends x inside .second)).mp
      change b'.vertexAt (ψ x.ends.first) = b'.vertexAt (ψ x.ends.second)
      rcases t.joins_of_link inside (t.selects'.sublist.subset hy) facing with ends | ends
      · simp only [vertexEnds, Ends.map, Ends.mk.injEq] at ends
        rw [← ends.1, ← ends.2, loop]
      · simp only [vertexEnds, Ends.map, Ends.mk.injEq] at ends
        rw [← ends.1, ← ends.2, loop]

theorem eq_of_link (t : Counterparts host φ ψ b b' chosen chosen') {x x' y : Strand}
    (hx : x ∈ chosen) (hx' : x' ∈ chosen) (first : Facing ψ b' x y) (second : Facing ψ b' x' y) :
    x = x' := by
  have same : b.SameComponent x x' :=
    t.corresponds.connected_iff.mp (Connected.trans first (Connected.symm Linked.symm second))
  apply (t.selects.exists_unique x (t.selects.sublist.subset hx)).unique
  · exact ⟨hx, SameComponent.refl x⟩
  · exact ⟨hx', same⟩

/-- A map of places along which kept links correspond. -/
def LinkMap (ψ : Equiv.Perm Socket) (b' : Blueprint) (links links' : List Strand)
    (g : Nat → Nat) : Prop :=
  Set.BijOn g {i | i < links.length} {j | j < links'.length} ∧
    ∀ (i : Nat) (x : Strand), links[i]? = some x → ∃ y, links'[g i]? = some y ∧ Facing ψ b' x y

theorem nodup_kept (t : Counterparts host φ ψ b b' chosen chosen') : (b.kept chosen).Nodup :=
  (t.selects.sublist.nodup t.grounded.links).filter _

theorem exists_linkMap (t : Counterparts host φ ψ b b' chosen chosen') :
    ∃ g, LinkMap ψ b' (b.kept chosen) (b'.kept chosen') g := by
  have inChosen : ∀ x ∈ b.kept chosen, x ∈ chosen := fun x hx => (mem_kept_iff.mp hx).1
  apply exists_bijOn_places t.nodup_kept t.symm.nodup_kept
  · exact fun x hx => t.exists_link hx
  · intro y hy
    obtain ⟨x, hx, facing⟩ := t.symm.exists_link hy
    exact ⟨x, hx, t.facing_symm_iff.mp facing⟩
  · intro x _ y hy y' hy' first second
    have inside := t.selects'.sublist.subset (mem_kept_iff.mp hy).1
    apply (t.selects'.exists_unique y inside).unique
    · exact ⟨(mem_kept_iff.mp hy).1, SameComponent.refl y⟩
    · exact ⟨(mem_kept_iff.mp hy').1, first.sameComponent second⟩
  · exact fun x hx x' hx' y _ first second =>
      t.eq_of_link (inChosen x hx) (inChosen x' hx') first second

/-! ## Derivations -/

/-- The map of handles for a map of places. -/
def lift {kind : Kind} (f : Nat → Nat) (h : Handle kind) : Handle kind := ⟨f h.slot⟩

theorem bijOn_lift {kind : Kind} {f : Nat → Nat} {m n : Nat}
    (map : Set.BijOn f {i | i < m} {j | j < n}) :
    Set.BijOn (@lift kind f) {h | h.slot < m} {h | h.slot < n} := by
  refine ⟨fun h inside => map.mapsTo inside, ?_, ?_⟩
  · intro h inside h' inside' same
    apply Handle.ext_slot
    exact map.injOn inside inside' (congrArg Handle.slot same)
  · intro h inside
    obtain ⟨i, inside', same⟩ := map.surjOn inside
    exact ⟨⟨i⟩, inside', Handle.ext_slot same⟩

variable {d d' : Derivation D}

theorem vertex_lift (t : Counterparts host φ ψ b b' chosen chosen') {f : Nat → Nat}
    (map : LeadMap φ b b' f) {links links' : List Strand} (reads : b.Reads host d links)
    (reads' : b'.Reads host d' links') {v : VertexId} {record : Vertex D.Node}
    (found : d.graph.vertex? v = some record) :
    (lift f v ∈ d'.createdVertices ↔ v ∈ d.createdVertices) ∧
      (∃ record', d'.graph.vertex? (lift f v) = some record' ∧ record'.payload = record.payload) ∧
      (v ∉ d.createdVertices → lift f v = v ∧ d'.graph.vertex? v = some record) := by
  have inside : v.slot < b.leads.length := by
    rw [← reads.order]
    exact (Array.getElem?_eq_some_iff.mp found).1
  have lead := List.getElem?_eq_getElem inside
  generalize b.leads[v.slot] = n at lead
  obtain ⟨m, lead', merged⟩ := map.2 _ n lead
  have kind := t.isCreated_of_lead (List.mem_of_getElem? lead) (List.mem_of_getElem? lead') merged
  have created := reads.mem_createdVertices_iff lead
  have created' : lift f v ∈ d'.createdVertices ↔ n.isCreated = true :=
    kind ▸ reads'.mem_createdVertices_iff lead'
  refine ⟨created'.trans created.symm, ?_⟩
  cases n with
  | host u =>
    obtain ⟨fixed, there⟩ := map.fixed t lead rfl
    have same : lift f v = v := Handle.ext_slot fixed
    have found' : d'.graph.vertex? v = some record := by
      rw [reads'.hostVertex v u there, ← reads.hostVertex v u lead, found]
    refine ⟨⟨record, ?_, rfl⟩, fun _ => ⟨same, found'⟩⟩
    rw [same]
    exact found'
  | created p =>
    refine ⟨?_, fun kept => absurd (created.mpr rfl) kept⟩
    obtain ⟨index, fresh⟩ := reads.freshVertex v p lead
    rw [found] at fresh
    cases fresh
    cases m with
    | host u => cases kind
    | created p' =>
      obtain ⟨index', fresh'⟩ := reads'.freshVertex (lift f v) p' lead'
      exact ⟨_, fresh', rfl⟩

theorem edge_lift (t : Counterparts host φ ψ b b' chosen chosen') {f g : Nat → Nat}
    (map : LeadMap φ b b' f) (links : LinkMap ψ b' (b.kept chosen) (b'.kept chosen') g)
    (reads : b.Reads host d (b.kept chosen)) (reads' : b'.Reads host d' (b'.kept chosen'))
    {e : EdgeId} {record : Edge D.Arc} (found : d.graph.edge? e = some record) :
    (lift g e ∈ d'.createdEdges ↔ e ∈ d.createdEdges) ∧
      ∃ record', d'.graph.edge? (lift g e) = some record' ∧
        (e ∈ d.createdEdges → record'.payload = record.payload) ∧
        record'.ends.Joins (lift f record.ends.first) (lift f record.ends.second) := by
  have inside : e.slot < (b.kept chosen).length := by
    rw [← reads.size]
    exact (Array.getElem?_eq_some_iff.mp found).1
  have link := List.getElem?_eq_getElem inside
  generalize (b.kept chosen)[e.slot] = x at link
  obtain ⟨y, link', facing⟩ := links.2 _ x link
  have inChosen := (mem_kept_iff.mp (List.mem_of_getElem? link)).1
  have inChosen' := (mem_kept_iff.mp (List.mem_of_getElem? link')).1
  have inLinks := t.selects.sublist.subset inChosen
  have kind := t.isCreated_of_link inChosen inChosen' facing
  have created := reads.mem_createdEdges_iff link
  have created' : lift g e ∈ d'.createdEdges ↔ x.origin.isCreated = true :=
    kind ▸ reads'.mem_createdEdges_iff link'
  refine ⟨created'.trans created.symm, ?_⟩
  obtain ⟨record', found'⟩ : ∃ record', d'.graph.edge? (lift g e) = some record' := by
    refine ⟨_, Array.getElem?_eq_getElem ?_⟩
    change g e.slot < d'.graph.size
    rw [reads'.size]
    exact (List.getElem?_eq_some_iff.mp link').1
  obtain ⟨ends, payload⟩ := reads.edge link found
  obtain ⟨ends', payload'⟩ := reads'.edge link' found'
  refine ⟨record', found', fun fresh => ?_, ?_⟩
  · have mark := created.mp fresh
    rw [payload mark, payload' (kind.trans mark)]
  · have joins := t.joins_of_link inLinks (t.selects'.sublist.subset inChosen') facing
    have first : b'.vertexAt (ψ x.ends.first) = lift f (b.vertexAt x.ends.first) :=
      map.vertexAt t (t.grounded.ends x inLinks .first)
    have second : b'.vertexAt (ψ x.ends.second) = lift f (b.vertexAt x.ends.second) :=
      map.vertexAt t (t.grounded.ends x inLinks .second)
    rw [first, second] at joins
    rw [ends', ends]
    exact joins

/-- What two blueprints that correspond describe is alike. -/
theorem likeness (t : Counterparts host φ ψ b b' chosen chosen') {f g : Nat → Nat}
    (map : LeadMap φ b b' f) (links : LinkMap ψ b' (b.kept chosen) (b'.kept chosen') g)
    (reads : b.Reads host d (b.kept chosen)) (reads' : b'.Reads host d' (b'.kept chosen')) :
    d.Likeness d' (lift f) (lift g) := by
  have vertexFound : ∀ v, d.graph.Contains v → ∃ record, d.graph.vertex? v = some record :=
    fun v inside => ⟨_, Array.getElem?_eq_getElem inside⟩
  have edgeFound : ∀ e, e.slot < d.graph.size → ∃ record, d.graph.edge? e = some record :=
    fun e inside => ⟨_, Array.getElem?_eq_getElem inside⟩
  refine {
    vertices := ?vertices
    edges := ?edges
    createdVertices := ?createdVertices
    createdEdges := ?createdEdges
    vertex := fun v record found => (t.vertex_lift map reads reads' found).2.1
    edge := fun e record found => (t.edge_lift map links reads reads' found).2
    keptVertex := fun v record found => (t.vertex_lift map reads reads' found).2.2 }
  case vertices =>
    have places := @bijOn_lift .vertex _ _ _ map.1
    rw [← reads.order, ← reads'.order] at places
    exact places
  case edges =>
    have places := @bijOn_lift .edge _ _ _ links.1
    rw [← reads.size, ← reads'.size] at places
    exact places
  case createdVertices =>
    intro v inside
    obtain ⟨record, found⟩ := vertexFound v inside
    exact (t.vertex_lift map reads reads' found).1
  case createdEdges =>
    intro e inside
    obtain ⟨record, found⟩ := edgeFound e inside
    exact (t.edge_lift map links reads reads' found).1

theorem exists_likeness (t : Counterparts host φ ψ b b' chosen chosen')
    (reads : b.Reads host d (b.kept chosen)) (reads' : b'.Reads host d' (b'.kept chosen')) :
    ∃ f g, d.Likeness d' f g := by
  obtain ⟨f, map⟩ := t.exists_leadMap
  obtain ⟨g, links⟩ := t.exists_linkMap
  exact ⟨_, _, t.likeness map links reads reads'⟩

end Counterparts

end Blueprint

end GraphSplice
