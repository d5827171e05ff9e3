import GraphSplice.Proofs.Blueprint.Detached
import GraphSplice.Proofs.Blueprint.Independence

/-!
Batches whose applications spare one another. None of them is stale, and no two links of their
blueprint meet.
-/

namespace GraphSplice

variable {D : Domain} {host : Host D} {batch : List (Resolved D)}

/-- The vacated sockets that an added edge takes, as matched vertex and cut edge. -/
def AddedEdge.splices (x : AddedEdge D) : List (Nat × Nat) :=
  [Side.first, .second].filterMap fun side =>
    match x.ends.get side, x.sockets.get side with
    | .matched i, some cut => some (i, cut)
    | _, _ => none

/-- No two added edges are spliced into the socket that a cut edge leaves at a vertex. -/
def Rule.SplicesApart (r : Rule D) : Prop :=
  r.addedEdges.Pairwise fun x y => ∀ target ∈ x.splices, target ∉ y.splices

instance (r : Rule D) : Decidable r.SplicesApart :=
  inferInstanceAs (Decidable (List.Pairwise _ _))

/-- The occurrence binds every vertex and every edge once. -/
def Resolved.Distinct (r : Resolved D) : Prop :=
  r.occurrence.vertices.Nodup ∧ r.occurrence.edges.Nodup

instance (r : Resolved D) : Decidable r.Distinct := inferInstanceAs (Decidable (_ ∧ _))

/-- The applications spare one another, and each of them keeps its own parts apart. -/
structure Separate (host : Host D) (batch : List (Resolved D)) : Prop where
  valid : ∀ r ∈ batch, r.Valid host
  distinct : ∀ r ∈ batch, r.Distinct
  splices : ∀ r ∈ batch, r.rule.SplicesApart
  spares : batch.Pairwise fun r s => r.Spares host s ∧ s.Spares host r

theorem AddedEdge.mem_splices {x : AddedEdge D} {side : Side} {i cut : Nat}
    (ends : x.ends.get side = .matched i) (sockets : x.sockets.get side = some cut) :
    (i, cut) ∈ x.splices := by
  apply List.mem_filterMap.mpr
  refine ⟨side, ?_, ?_⟩
  · cases side <;> simp
  · rw [ends, sockets]

namespace Separate

/-- A single application spares itself from nothing. -/
theorem singleton {r : Resolved D} (valid : r.Valid host) (distinct : r.Distinct)
    (splices : r.rule.SplicesApart) : Separate host [r] := by
  refine ⟨?_, ?_, ?_, List.pairwise_singleton _ _⟩
  · intro s hs
    rw [List.mem_singleton.mp hs]
    exact valid
  · intro s hs
    rw [List.mem_singleton.mp hs]
    exact distinct
  · intro s hs
    rw [List.mem_singleton.mp hs]
    exact splices

theorem apart (separate : Separate host batch) : Apart host batch :=
  ⟨separate.valid, fun r hr => (separate.distinct r hr).1, separate.spares⟩

theorem fresh (separate : Separate host batch) : ∀ r ∈ batch, ¬ r.Stale batch :=
  separate.apart.fresh

theorem of_sublist (separate : Separate host batch) {part : List (Resolved D)}
    (h : part.Sublist batch) : Separate host part :=
  ⟨fun r hr => separate.valid r (h.subset hr), fun r hr => separate.distinct r (h.subset hr),
    fun r hr => separate.splices r (h.subset hr), separate.spares.sublist h⟩

theorem node?_ne {r : Resolved D} (valid : r.Valid host) (distinct : r.Distinct) {a : Nat}
    {first second : Endpoint} {socket socket' : Option Nat}
    (anchors : r.rule.Anchors first socket) (anchors' : r.rule.Anchors second socket')
    (different : first ≠ second) : r.node? a first ≠ r.node? a second := by
  intro same
  cases first with
  | matched i =>
    obtain ⟨v, hv, -⟩ := Resolved.vertex_of_anchors valid anchors
    cases second with
    | matched j =>
      obtain ⟨u, hu, -⟩ := Resolved.vertex_of_anchors valid anchors'
      simp only [Resolved.node?, hv, hu, Option.map_some, Option.some.injEq,
        NodeOrigin.host.injEq] at same
      subst same
      have inside := (List.getElem?_eq_some_iff.mp hv).1
      have equal := (List.getElem?_inj inside distinct.1).mp (hv.trans hu.symm)
      exact different (congrArg Endpoint.matched equal)
    | created k => simp [Resolved.node?, hv, anchors'.1] at same
  | created k =>
    cases second with
    | matched j =>
      obtain ⟨u, hu, -⟩ := Resolved.vertex_of_anchors valid anchors'
      simp [Resolved.node?, hu, anchors.1] at same
    | created l =>
      simp only [Resolved.node?, anchors.1, anchors'.1, if_true, Option.some.injEq,
        NodeOrigin.created.injEq, Provenance.mk.injEq] at same
      exact different (congrArg Endpoint.created same.2.1)

/-- Only one end of one added edge is spliced into a socket. -/
theorem eq_of_splice {r : Resolved D} (valid : r.Valid host) (splices : r.rule.SplicesApart)
    {k k' : Nat} {x x' : AddedEdge D} {side side' : Side} {i cut : Nat}
    (hx : r.rule.addedEdges[k]? = some x) (hx' : r.rule.addedEdges[k']? = some x')
    (ends : x.ends.get side = .matched i) (sockets : x.sockets.get side = some cut)
    (ends' : x'.ends.get side' = .matched i) (sockets' : x'.sockets.get side' = some cut) :
    k = k' ∧ side = side' := by
  have sameEdge : k = k' := by
    by_contra different
    obtain ⟨inside, rfl⟩ := List.getElem?_eq_some_iff.mp hx
    obtain ⟨inside', rfl⟩ := List.getElem?_eq_some_iff.mp hx'
    have pairs := List.pairwise_iff_getElem.mp splices
    have takes := AddedEdge.mem_splices ends sockets
    have takes' := AddedEdge.mem_splices ends' sockets'
    rcases Nat.lt_or_gt_of_ne different with before | after
    · exact pairs k k' inside inside' before _ takes takes'
    · exact pairs k' k inside' inside after _ takes' takes
  subst sameEdge
  obtain rfl : x = x' := Option.some.inj (hx.symm.trans hx')
  have apart := (valid.rule.added x (List.mem_of_getElem? hx)).1
  refine ⟨rfl, ?_⟩
  cases side with
  | first =>
    cases side' with
    | first => rfl
    | second => exact absurd (ends.trans ends'.symm) apart
  | second =>
    cases side' with
    | first => exact absurd (ends'.trans ends.symm) apart
    | second => rfl

/-- Ends that are spliced into one socket name one vertex and one cut edge of the rule. -/
theorem exists_splice {r : Resolved D} (distinct : r.Distinct) {x x' : AddedEdge D}
    {side side' : Side} {s : Socket}
    (spliced : r.spliced? host (x.ends.get side) (x.sockets.get side) = some s)
    (spliced' : r.spliced? host (x'.ends.get side') (x'.sockets.get side') = some s) :
    ∃ i cut, x.ends.get side = .matched i ∧ x.sockets.get side = some cut ∧
      x'.ends.get side' = .matched i ∧ x'.sockets.get side' = some cut := by
  obtain ⟨i, cut, v, e, record, at', ends, sockets, hv, he, there, located, rfl⟩ :=
    Resolved.spliced?_eq_some spliced
  obtain ⟨i', cut', v', e', record', at'', ends', sockets', hv', he', there', located', same⟩ :=
    Resolved.spliced?_eq_some spliced'
  cases same
  rw [there] at there'
  cases there'
  obtain rfl : cut = cut' :=
    (List.getElem?_inj (List.getElem?_eq_some_iff.mp he).1 distinct.2).mp (he.trans he'.symm)
  obtain rfl : v = v' := (Ends.get_of_sideAt? located).symm.trans (Ends.get_of_sideAt? located')
  obtain rfl : i = i' :=
    (List.getElem?_inj (List.getElem?_eq_some_iff.mp hv).1 distinct.1).mp (hv.trans hv'.symm)
  exact ⟨i, cut, ends, sockets, ends', sockets'⟩

/-- Ends of added edges that share a socket are one end of one edge. -/
theorem eq_of_socket_eq (separate : Separate host batch) {a a' k k' : Nat} {r r' : Resolved D}
    {x x' : AddedEdge D} {side side' : Side} (hr : batch[a]? = some r)
    (hr' : batch[a']? = some r') (hx : r.rule.addedEdges[k]? = some x)
    (hx' : r'.rule.addedEdges[k']? = some x')
    (same : r.socket host a k x side = r'.socket host a' k' x' side') :
    a = a' ∧ k = k' ∧ side = side' := by
  have own := separate.apart.application_of_socket hr hr' hx same
  unfold Resolved.socket at same
  cases spliced : r.spliced? host (x.ends.get side) (x.sockets.get side) with
  | none =>
    cases spliced' : r'.spliced? host (x'.ends.get side') (x'.sockets.get side') with
    | none =>
      rw [spliced, spliced'] at same
      simp only [Option.getD_none, Socket.fresh.injEq, Provenance.mk.injEq] at same
      exact ⟨same.1.2.2, same.1.2.1, same.2⟩
    | some s' =>
      obtain ⟨_, _, _, e', _, at', _, _, _, _, _, _, located⟩ := Resolved.spliced?_eq_some spliced'
      rw [spliced, spliced', located] at same
      cases same
  | some s =>
    cases spliced' : r'.spliced? host (x'.ends.get side') (x'.sockets.get side') with
    | none =>
      obtain ⟨_, _, _, e, _, at', _, _, _, _, _, _, located⟩ := Resolved.spliced?_eq_some spliced
      rw [spliced, spliced', located] at same
      cases same
    | some s' =>
      rw [spliced, spliced'] at same
      obtain rfl : s = s' := same
      subst own
      obtain rfl : r = r' := Option.some.inj (hr.symm.trans hr')
      have member := List.mem_of_getElem? hr
      obtain ⟨i, cut, ends, sockets, ends', sockets'⟩ :=
        exists_splice (separate.distinct r member) spliced spliced'
      exact ⟨rfl, eq_of_splice (separate.valid r member) (separate.splices r member) hx hx' ends
        sockets ends' sockets'⟩

theorem detached (separate : Separate host batch) : (Blueprint.of host batch).Detached := by
  have proper := Blueprint.proper_of separate.valid
  have hostAlone : ∀ x ∈ (Blueprint.of host batch).links, ∀ e, x.origin = .host e →
      ∀ y ∈ (Blueprint.of host batch).links, ∀ side side',
        x.ends.get side = y.ends.get side' → x = y ∧ side = side' := by
    intro x hx e origin y hy side side' same
    have own : ∀ k, x.ends.get k = .host e k := by
      intro k
      rw [proper.host x hx e origin]
      cases k <;> rfl
    rw [own] at same
    obtain rfl := proper.apart x hx e origin y hy side side' same.symm
    rw [own] at same
    exact ⟨rfl, (Socket.host.inj same).2⟩
  constructor
  · intro x hx y hy side side' same
    rcases Blueprint.mem_links_iff.mp hx with ⟨e, rfl, -⟩ | ⟨a, r, k, z, hr, hz, rfl⟩
    · exact hostAlone _ hx e rfl y hy side side' same
    · rcases Blueprint.mem_links_iff.mp hy with ⟨e, rfl, -⟩ | ⟨a', r', k', z', hr', hz', rfl⟩
      · obtain ⟨equal, sides⟩ := hostAlone _ hy e rfl _ hx side' side same.symm
        exact ⟨equal.symm, sides.symm⟩
      · rw [Blueprint.strand_get, Blueprint.strand_get] at same
        obtain ⟨rfl, rfl, rfl⟩ := separate.eq_of_socket_eq hr hr' hz hz' same
        rw [hr] at hr'
        cases hr'
        rw [hz] at hz'
        cases hz'
        exact ⟨rfl, rfl⟩
  · intro x hx created
    rcases Blueprint.mem_links_iff.mp hx with ⟨e, rfl, -⟩ | ⟨a, r, k, z, hr, hz, rfl⟩
    · cases created
    · have member := List.mem_of_getElem? hr
      have added := (separate.valid r member).rule.added z (List.mem_of_getElem? hz)
      have first := separate.apart.ownerIn_socket hr hz .first
      have second := separate.apart.ownerIn_socket hr hz .second
      change Blueprint.ownerIn host batch (r.socket host a k z .first) ≠
        Blueprint.ownerIn host batch (r.socket host a k z .second)
      rw [first, second]
      exact node?_ne (separate.valid r member) (separate.distinct r member) (added.2 .first)
        (added.2 .second) added.1

end Separate

end GraphSplice
