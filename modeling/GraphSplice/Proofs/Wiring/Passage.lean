import GraphSplice.Proofs.Samples
import GraphSplice.Proofs.Wiring.Folding
import GraphSplice.Proofs.Wiring.Preparation

/-!
The wirings that a run passes through, from the expanded host over the cuts and insertions to the
last socket dropped, and what holds of each of them.
-/

namespace GraphSplice.Wiring

variable {D : Domain} {host : Host D} {w w' : Wiring}

/-- How far a run has come, and what it is still to fold or to drop. -/
inductive Phase
  | preparing
  | foldingSockets (left : List Folding)
  | foldingNodes (left : List Folding)
  | dropping (left : List JointId)

/-- The run is in the phase with the wiring. Whether odd components are let through makes no
difference to the wirings passed. -/
inductive Passage (host : Host D) : Phase → Wiring → Prop
  | prepared {w : Wiring} : Prepared host w → Passage host .preparing w
  | beginSockets {w : Wiring} :
      Passage host .preparing w → Passage host (.foldingSockets w.socketFoldings) w
  | foldSocket {w : Wiring} {f : Folding} {left : List Folding} :
      Passage host (.foldingSockets (f :: left)) w → Passage host (.foldingSockets left) (f.apply w)
  | beginNodes {w : Wiring} :
      Passage host (.foldingSockets []) w → Passage host (.foldingNodes w.nodeFoldings) w
  | foldNode {w : Wiring} {f : Folding} {left : List Folding} :
      Passage host (.foldingNodes (f :: left)) w → Passage host (.foldingNodes left) (f.apply w)
  | beginDrops {w : Wiring} :
      Passage host (.foldingNodes []) w → Passage host (.dropping w.dangling) w
  | drop {w : Wiring} {j : JointId} {left : List JointId} :
      Passage host (.dropping (j :: left)) w → Passage host (.dropping left) (w.removeJoint j)

/-! ## The calls of a run -/

namespace Passage

theorem foldSockets {left : List Folding} (passage : Passage host (.foldingSockets left) w) :
    Passage host (.foldingSockets []) (left.foldl Folding.apply w) := by
  induction left generalizing w with
  | nil => exact passage
  | cons f left ih => exact ih passage.foldSocket

theorem foldNodes {left : List Folding} (passage : Passage host (.foldingNodes left) w) :
    Passage host (.foldingNodes []) (left.foldl Folding.apply w) := by
  induction left generalizing w with
  | nil => exact passage
  | cons f left ih => exact ih passage.foldNode

theorem drops {left : List JointId} (passage : Passage host (.dropping left) w) :
    Passage host (.dropping []) (left.foldl (fun w j => w.removeJoint j) w) := by
  induction left generalizing w with
  | nil => exact passage
  | cons j left ih => exact ih passage.drop

theorem mergeSockets {checkParity : Bool} {count : Nat} (passage : Passage host .preparing w)
    (merged : w.mergeSockets checkParity = .ok (w', count)) :
    Passage host (.foldingSockets []) w' := by
  rw [← foldl_socketFoldings merged]
  exact passage.beginSockets.foldSockets

theorem mergeNodes (passage : Passage host (.foldingSockets []) w) :
    Passage host (.foldingNodes []) w.mergeNodes.1 := by
  rw [← foldl_nodeFoldings]
  exact passage.beginNodes.foldNodes

theorem prune (passage : Passage host (.foldingNodes []) w) :
    Passage host (.dropping []) w.prune.1 := passage.beginDrops.drops

end Passage

/-! ## The invariant -/

/-- What holds in each phase. While nodes are folded it is known where the folding leads to, which
is what tells at its end that every socket hangs off one node. -/
def Phase.Holds : Phase → Wiring → Prop
  | .preparing, w => w.Formed
  | .foldingSockets left, w => w.Hung ∧ w.Foldable left
  | .foldingNodes left, w => w.Hung ∧ w.Foldable left ∧
      ∃ start : Wiring, start.Hung ∧ left.foldl Folding.apply w = start.mergeNodes.1
  | .dropping left, w => w.Sound ∧ (∃ owner, w.Rooted owner) ∧ ∀ j ∈ left, ¬ w.IsNode j

theorem Formed.hung (formed : w.Formed) : w.Hung := by
  obtain ⟨owner, rooted⟩ := formed.rooted
  exact rooted.hung formed.sound

theorem Rooted.removeJoint {owner : Nat → Nat} (rooted : w.Rooted owner) (sound : w.Sound)
    {j : JointId} (spared : ¬ w.IsNode j) : (w.removeJoint j).Rooted owner := by
  refine rooted.of_fewer (fun e x h => ((wire?_removeJoint sound).mp h).1) ?_
  rintro s ⟨origin, h⟩
  rw [kind?_removeJoint] at h
  split at h
  · cases h
  · next other =>
    have attached := rooted.attached s ⟨origin, h⟩
    have node := attached.isNode sound
    obtain ⟨e, found⟩ := attached
    refine ⟨e, (wire?_removeJoint sound).mpr ⟨found, ?_⟩⟩
    rintro (same | same)
    · exact spared (same ▸ node)
    · exact other same

theorem Passage.holds (consistent : host.Consistent) {phase : Phase}
    (passage : Passage host phase w) : phase.Holds w := by
  induction passage with
  | prepared prepared => exact prepared.formed consistent
  | beginSockets _ ih => exact ⟨ih.hung, foldable_socketFoldings ih.sound⟩
  | foldSocket _ ih => exact ih.2.apply ih.1
  | beginNodes _ ih =>
    obtain ⟨hung, -⟩ := ih
    exact ⟨hung, foldable_nodeFoldings hung.sound, _, hung, foldl_nodeFoldings _⟩
  | foldNode _ ih =>
    obtain ⟨hung, foldable, start⟩ := ih
    obtain ⟨hung', foldable'⟩ := foldable.apply hung
    exact ⟨hung', foldable', start⟩
  | beginDrops _ ih =>
    obtain ⟨hung, -, start, hung₀, rfl⟩ := ih
    refine ⟨hung.sound, hung₀.rooted_mergeNodes, ?_⟩
    intro j hj node
    exact node.not_isSocket (mem_dangling_iff.mp hj).1
  | drop _ ih =>
    obtain ⟨sound, ⟨owner, rooted⟩, spared⟩ := ih
    have rooted' := rooted.removeJoint sound (spared _ List.mem_cons_self)
    refine ⟨sound.removeJoint _, ⟨owner, rooted'⟩, ?_⟩
    rintro j hj ⟨origin, h⟩
    exact spared j (List.mem_cons_of_mem _ hj) ⟨origin, kind?_of_removeJoint h⟩

theorem Phase.Holds.hung {phase : Phase} (holds : phase.Holds w) : w.Hung := by
  cases phase with
  | preparing => exact Formed.hung holds
  | foldingSockets left => exact holds.1
  | foldingNodes left => exact holds.1
  | dropping left =>
    obtain ⟨sound, ⟨owner, rooted⟩, -⟩ := holds
    exact rooted.hung sound

/-- The phases in which every socket hangs off one node: all before sockets are folded and all after
nodes are. -/
def Phase.Single : Phase → Prop
  | .preparing => True
  | .foldingSockets _ => False
  | .foldingNodes left => left = []
  | .dropping _ => True

theorem Phase.Holds.rooted {phase : Phase} (holds : phase.Holds w) (single : phase.Single) :
    ∃ owner, w.Rooted owner := by
  cases phase with
  | preparing => exact Formed.rooted holds
  | foldingSockets left => exact single.elim
  | foldingNodes left =>
    obtain rfl := single
    obtain ⟨-, -, start, hung, rfl⟩ := holds
    exact hung.rooted_mergeNodes
  | dropping left => exact holds.2.1

theorem Rooted.attachedNodes_eq {owner : Nat → Nat} (rooted : w.Rooted owner) (sound : w.Sound)
    {s : JointId} (hs : w.IsSocket s) : w.attachedNodes s = [owner s] := by
  obtain ⟨e, found⟩ := rooted.attached s hs
  exact attachedNodes_eq_singleton sound found fun f m h => rooted.single f e m _ s h found

/-! ## Coherence -/

/-- The joints and the wires tell the same, and no socket is left without a node. -/
structure Coherent (w : Wiring) : Prop where
  /-- The ends of a wire are there and list it. -/
  listed : ∀ e wire j, w.wire? e = some wire → wire.ends.Touches j → w.IsLive j ∧ e ∈ w.incident j
  /-- What a joint lists is a wire there. -/
  touching : ∀ j e, w.IsLive j → e ∈ w.incident j →
    ∃ wire, w.wire? e = some wire ∧ wire.ends.Touches j
  attachment : ∀ e ends, w.wire? e = some ⟨ends, .attachment⟩ →
    (w.IsNode ends.first ∧ w.IsSocket ends.second) ∨ (w.IsSocket ends.first ∧ w.IsNode ends.second)
  link : ∀ e ends origin, w.wire? e = some ⟨ends, .link origin⟩ →
    w.IsSocket ends.first ∧ w.IsSocket ends.second
  attached : ∀ s, w.IsSocket s → ∃ n ∈ w.attachedNodes s, w.IsNode n

theorem Hung.coherent (hung : w.Hung) : w.Coherent where
  listed e wire j found touches := ⟨hung.sound.isLive_of_touches found touches,
    hung.sound.mem_incident_iff.mpr ⟨wire, found, touches⟩⟩
  touching j e _ listed := hung.sound.mem_incident_iff.mp listed
  attachment e ends found := .inl (hung.sound.attachment e ends found)
  link := hung.sound.link
  attached s hs := by
    obtain ⟨n, attached⟩ := hung.attached s hs
    exact ⟨n, (mem_attachedNodes_iff hung.sound hs).mpr attached, attached.isNode hung.sound⟩

/-- The wirings between the calls of a run are passed through, each call being a sequence of steps,
and all the wirings passed through are coherent. -/
theorem coherent_of_passage (built : host.Built) :
    (∀ phase (w : Wiring), Passage host phase w → w.Coherent ∧
      (phase.Single → ∀ s, w.IsSocket s → ∃ n, w.IsNode n ∧ w.attachedNodes s = [n])) ∧
    (∀ (batch : List (Resolved D)) (state : D.BuildState) (w : Wiring),
      Insertion.applyAll host batch (Cutting.applyAll host batch ⟨ofGraph host, state⟩).wiring =
        .ok w → Passage host .preparing w) ∧
    (∀ (w w' : Wiring) checkParity count, Passage host .preparing w →
      w.mergeSockets checkParity = .ok (w', count) → Passage host (.foldingSockets []) w') ∧
    (∀ w : Wiring, Passage host (.foldingSockets []) w →
      Passage host (.foldingNodes []) w.mergeNodes.1) ∧
    ∀ w : Wiring, Passage host (.foldingNodes []) w → Passage host (.dropping []) w.prune.1 := by
  refine ⟨?_, fun batch state w inserted => .prepared (prepared_of_batch built.consistent inserted),
    fun w w' checkParity count passage merged => passage.mergeSockets merged,
    fun w passage => passage.mergeNodes, fun w passage => passage.prune⟩
  intro phase w passage
  have holds := passage.holds built.consistent
  refine ⟨holds.hung.coherent, ?_⟩
  intro single s hs
  obtain ⟨owner, rooted⟩ := holds.rooted single
  exact ⟨owner s, (rooted.attached s hs).isNode holds.hung.sound,
    rooted.attachedNodes_eq holds.hung.sound hs⟩

open Samples in
/-- The spokes of a star are bridged two by two, which links three sockets in a ring. Let through,
the odd component is folded like any other. -/
theorem coherent_of_passage_ring :
    ∃ w w' : Wiring, Prepared (shaped 4 [(0, 1), (0, 2), (0, 3)]) w ∧
      (w.mergeSockets true).isOk = false ∧ w.mergeSockets false = .ok (w', 1) ∧ w'.Coherent ∧
      w'.mergeNodes.1.prune.1.Coherent ∧
      ∀ s, w'.mergeNodes.1.prune.1.IsSocket s →
        ∃ n, w'.mergeNodes.1.prune.1.IsNode n ∧ w'.mergeNodes.1.prune.1.attachedNodes s = [n] := by
  let host := shaped 4 [(0, 1), (0, 2), (0, 3)]
  obtain ⟨w, inserted, refused, folded⟩ : ∃ w,
      ((single bridgeSpokes).resolveAll host
          [applyAt [0, 1, 2] [0, 1], applyAt [0, 2, 3] [1, 2], applyAt [0, 1, 3] [0, 2]] >>=
        fun batch => Insertion.applyAll host batch
          (Cutting.applyAll host batch ⟨ofGraph host, ()⟩).wiring) = .ok w ∧
      (w.mergeSockets true).isOk = false ∧ (w.mergeSockets false).toOption.map (·.2) = some 1 :=
    exists_of_check (by decide +kernel)
  obtain ⟨batch, -, inserted⟩ := bind_ok inserted
  obtain ⟨⟨w', _⟩, merged, rfl⟩ := Option.map_eq_some_iff.mp folded
  rw [toOption_eq_some_iff] at merged
  obtain ⟨coherent, prepared, mergeSockets, mergeNodes, prune⟩ :=
    coherent_of_passage (built_shaped 4 [(0, 1), (0, 2), (0, 3)])
  have sockets := mergeSockets w w' false 1 (prepared batch () w inserted) merged
  have dropped := prune _ (mergeNodes w' sockets)
  obtain ⟨coherent', single⟩ := coherent _ _ dropped
  exact ⟨w, w', prepared_of_batch (built_shaped ..).consistent inserted, refused, merged,
    (coherent _ _ sockets).1, coherent', single trivial⟩

end GraphSplice.Wiring
