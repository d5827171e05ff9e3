import GraphSplice.Proofs.Blueprint.Correspondence

/-!
Renaming the applications of a batch renames what they create and leaves all else as it is:
walks, sides and merging go along, and so do the reasons for a refusal, which speak of host sockets
and of numbers only.
-/

namespace GraphSplice

section Relabel

variable (σ : Equiv.Perm Nat)

def Provenance.relabel (p : Provenance) : Provenance := { p with application := σ p.application }

def NodeOrigin.relabel : NodeOrigin → NodeOrigin
  | .host v => .host v
  | .created p => .created (p.relabel σ)

def LinkOrigin.relabel : LinkOrigin → LinkOrigin
  | .host e => .host e
  | .created p => .created (p.relabel σ)

def Socket.relabel : Socket → Socket
  | .host e side => .host e side
  | .fresh p side => .fresh (p.relabel σ) side

def Strand.relabel (x : Strand) : Strand := ⟨x.origin.relabel σ, x.ends.map (·.relabel σ)⟩

@[simp] theorem LinkOrigin.isCreated_relabel (o : LinkOrigin) :
    (o.relabel σ).isCreated = o.isCreated := by
  cases o <;> rfl

@[simp] theorem Provenance.relabel_symm (p : Provenance) : (p.relabel σ).relabel σ.symm = p := by
  simp [relabel]

@[simp] theorem NodeOrigin.relabel_symm (n : NodeOrigin) : (n.relabel σ).relabel σ.symm = n := by
  cases n <;> simp [relabel]

@[simp] theorem LinkOrigin.relabel_symm (o : LinkOrigin) : (o.relabel σ).relabel σ.symm = o := by
  cases o <;> simp [relabel]

@[simp] theorem Socket.relabel_symm (s : Socket) : (s.relabel σ).relabel σ.symm = s := by
  cases s <;> simp [relabel]

@[simp] theorem Strand.relabel_symm (x : Strand) : (x.relabel σ).relabel σ.symm = x := by
  obtain ⟨origin, ⟨first, second⟩⟩ := x
  simp [relabel, Ends.map]

theorem Socket.relabel_injective : Function.Injective (Socket.relabel σ) := by
  intro s t h
  rw [← relabel_symm σ s, h, relabel_symm]

theorem Socket.relabel_eq_host_iff {s : Socket} {e : EdgeId} {side : Side} :
    s.relabel σ = .host e side ↔ s = .host e side := by
  cases s <;> simp [relabel]

theorem Strand.relabel_joins_iff {x : Strand} {s t : Socket} :
    (x.relabel σ).ends.Joins (s.relabel σ) (t.relabel σ) ↔ x.ends.Joins s t := by
  constructor
  · intro joins
    have back := joins.map (Socket.relabel σ.symm)
    simp only [relabel, Socket.relabel_symm] at back
    have ends : (x.ends.map (Socket.relabel σ)).map (Socket.relabel σ.symm) = x.ends := by
      simp [Ends.map]
    rwa [ends] at back
  · exact fun joins => joins.map (Socket.relabel σ)

/-- The relabelling of nodes, which the inverse renaming undoes. -/
def NodeOrigin.relabelEquiv : Equiv.Perm NodeOrigin :=
  ⟨relabel σ, relabel σ.symm, relabel_symm σ, relabel_symm σ.symm⟩

def Socket.relabelEquiv : Equiv.Perm Socket :=
  ⟨relabel σ, relabel σ.symm, relabel_symm σ, relabel_symm σ.symm⟩

theorem Strand.alike_relabel (x : Strand) : x.Alike (Socket.relabelEquiv σ) (x.relabel σ) :=
  ⟨LinkOrigin.isCreated_relabel σ x.origin, .inl rfl⟩

end Relabel

namespace Blueprint

variable {b b' : Blueprint} {σ : Equiv.Perm Nat}

/-- The second blueprint is the first one with other numbers of applications; what comes from the
host stands first in both. -/
structure Renamed (σ : Equiv.Perm Nat) (b b' : Blueprint) : Prop where
  nodes : ∀ n, n.relabel σ ∈ b'.nodes ↔ n ∈ b.nodes
  owner : ∀ s, b'.owner (s.relabel σ) = (b.owner s).map (·.relabel σ)
  links : (b.links.map (·.relabel σ)).Perm b'.links
  hostNodes : SameFront NodeOrigin.isCreated b.nodes b'.nodes
  hostLinks : SameFront (fun x : Strand => x.origin.isCreated) b.links b'.links

namespace Renamed

theorem mem_links_iff (renamed : Renamed σ b b') (x : Strand) :
    x.relabel σ ∈ b'.links ↔ x ∈ b.links := by
  rw [← renamed.links.mem_iff, List.mem_map]
  constructor
  · rintro ⟨y, hy, same⟩
    rw [← Strand.relabel_symm σ x, ← same, Strand.relabel_symm]
    exact hy
  · exact fun hx => ⟨x, hx, rfl⟩

theorem symm (renamed : Renamed σ b b') : Renamed σ.symm b' b := by
  have back : ∀ n : NodeOrigin, (n.relabel σ.symm).relabel σ = n := fun n =>
    NodeOrigin.relabel_symm σ.symm n
  refine ⟨?_, ?_, ?_, renamed.hostNodes.symm, renamed.hostLinks.symm⟩
  · intro n
    rw [← renamed.nodes, back]
  · intro s
    have there := renamed.owner (s.relabel σ.symm)
    have same : (s.relabel σ.symm).relabel σ = s := Socket.relabel_symm σ.symm s
    rw [same] at there
    rw [there, Option.map_map]
    have id' : (NodeOrigin.relabel σ.symm ∘ NodeOrigin.relabel σ) = id := by
      funext n
      simp
    rw [id', Option.map_id]
    rfl
  · have mapped := renamed.links.symm.map (Strand.relabel σ.symm)
    rw [List.map_map] at mapped
    have id' : (Strand.relabel σ.symm ∘ Strand.relabel σ) = id := by
      funext x
      simp
    rwa [id', List.map_id] at mapped

theorem corresponds (renamed : Renamed σ b b') :
    Corresponds (NodeOrigin.relabelEquiv σ) (Socket.relabelEquiv σ) b b' where
  host _ := rfl
  nodes := renamed.nodes
  owner := renamed.owner
  link x hx := ⟨x.relabel σ, (renamed.mem_links_iff x).mpr hx, x.alike_relabel σ⟩
  onto y hy := by
    obtain ⟨x, hx, rfl⟩ := List.mem_map.mp (renamed.links.mem_iff.mpr hy)
    exact ⟨x, hx, x.alike_relabel σ⟩
  front := renamed.hostNodes

theorem connected_iff (renamed : Renamed σ b b') {s t : Socket} :
    Connected b'.Linked (s.relabel σ) (t.relabel σ) ↔ Connected b.Linked s t :=
  renamed.corresponds.connected_iff

theorem beside_iff (renamed : Renamed σ b b') {s t : Socket} :
    b'.Beside (s.relabel σ) (t.relabel σ) ↔ b.Beside s t :=
  renamed.corresponds.beside_iff

theorem onOddWalk_iff (renamed : Renamed σ b b') {s : Socket} :
    OnOddWalk b'.Linked (s.relabel σ) ↔ OnOddWalk b.Linked s :=
  renamed.corresponds.onOddWalk_iff

theorem odd (renamed : Renamed σ b b') (h : b.Odd) : b'.Odd := renamed.corresponds.odd h

theorem odd_iff (renamed : Renamed σ b b') : b'.Odd ↔ b.Odd := renamed.corresponds.odd_iff

/-! ## Refusals -/

theorem firstOdd (renamed : Renamed σ b b') {n : Nat} (h : b.FirstOdd n) : b'.FirstOdd n := by
  obtain ⟨e, side, odd, first, sockets, nodup, count, component⟩ := h
  refine ⟨e, side, renamed.onOddWalk_iff.mpr odd, ?_, sockets.map (Socket.relabel σ),
    List.Nodup.map (Socket.relabel_injective σ) nodup, by rw [List.length_map, count], ?_⟩
  · exact fun e' side' odd' => first e' side' (renamed.onOddWalk_iff.mp odd')
  · intro s
    have same : (s.relabel σ.symm).relabel σ = s := Socket.relabel_symm σ.symm s
    have connected := renamed.connected_iff (s := .host e side) (t := s.relabel σ.symm)
    rw [same] at connected
    rw [List.mem_map]
    refine Iff.trans ?_ connected.symm
    rw [← component]
    constructor
    · rintro ⟨t, ht, rfl⟩
      rwa [Socket.relabel_symm]
    · exact fun mem => ⟨_, mem, same⟩

theorem foremost (renamed : Renamed σ b b') {e : EdgeId} {side : Side} (h : b.Foremost e side) :
    b'.Foremost e side := by
  obtain ⟨owned, first⟩ := h
  refine ⟨?_, fun e' side' beside => first e' side' (renamed.beside_iff.mp beside)⟩
  have there := renamed.owner (.host e side)
  rw [show (Socket.host e side).relabel σ = .host e side from rfl] at there
  rw [there, Option.isSome_map]
  exact owned

theorem length_between (renamed : Renamed σ b b') (s t : Socket) :
    (b'.between (s.relabel σ) (t.relabel σ)).length = (b.between s t).length := by
  unfold between
  rw [← (renamed.links.filter _).length_eq, List.filter_map, List.length_map]
  congr 2
  funext x
  exact decide_eq_decide.mpr (Strand.relabel_joins_iff σ)

theorem crowded (renamed : Renamed σ b b') {e : EdgeId} {side : Side} {n : Nat}
    (h : b.Crowded e side n) : b'.Crowded e side n := by
  obtain ⟨several, first, e', side', second, count⟩ := h
  refine ⟨several, renamed.foremost first, e', side', renamed.foremost second, ?_⟩
  rw [← count]
  exact renamed.length_between (.host e side) (.host e' side')

theorem firstCrowded (renamed : Renamed σ b b') {n : Nat} (h : b.FirstCrowded n) :
    b'.FirstCrowded n := by
  obtain ⟨e, side, crowded, first⟩ := h
  exact ⟨e, side, renamed.crowded crowded,
    fun e' side' n' crowded' => first e' side' n' (renamed.symm.crowded crowded')⟩

end Renamed

end Blueprint

end GraphSplice
