import GraphSplice.Proofs.Blueprint.Stamping
import GraphSplice.Proofs.Graph.Consistency

/-!
Stable indices from one graph to the next. The indices of one sort of elements are kept with the
counter behind them; a graph succeeds another when the elements that stay keep their indices and
every other one took the index that the counter had reached in its turn. The counter never falls,
so a new index is beyond all that came before it, those of lost elements included.
-/

namespace GraphSplice

universe u v
variable {N : Type u} {E : Type v}

/-- The stable indices of one sort of elements, and the counter behind them. -/
structure Register (kind : Kind) where
  index? : Handle kind → Option StableIndex
  counter : StableIndex

namespace Graph

def vertexRegister (g : Graph N E) : Register .vertex :=
  ⟨fun v => (g.vertex? v).map (·.index), g.nextVertexIndex⟩

def edgeRegister (g : Graph N E) : Register .edge :=
  ⟨fun e => (g.edge? e).map (·.index), g.nextEdgeIndex⟩

theorem slot_lt_order {g : Graph N E} {v : VertexId} {index : StableIndex}
    (h : g.vertexRegister.index? v = some index) : v.slot < g.order := by
  obtain ⟨record, found, -⟩ := Option.map_eq_some_iff.mp h
  exact (Array.getElem?_eq_some_iff.mp found).1

theorem slot_lt_size {g : Graph N E} {e : EdgeId} {index : StableIndex}
    (h : g.edgeRegister.index? e = some index) : e.slot < g.size := by
  obtain ⟨record, found, -⟩ := Option.map_eq_some_iff.mp h
  exact (Array.getElem?_eq_some_iff.mp found).1

/-- What a creation callback may do to the graph: add elements without naming their indices, and
change payloads. -/
inductive Extension : Graph N E → Graph N E → Prop
  | refl (g : Graph N E) : Extension g g
  | addVertex {g h : Graph N E} (payload : N) : Extension g h → Extension g (h.addVertex payload)
  | addEdge {g h h' : Graph N E} {a b : VertexId} {payload : E} :
      Extension g h → h.addEdge a b payload = .ok h' → Extension g h'
  | modifyVertex {g h : Graph N E} (v : VertexId) (f : N → N) :
      Extension g h → Extension g (h.modifyVertex v f)
  | modifyEdge {g h : Graph N E} (e : EdgeId) (f : E → E) :
      Extension g h → Extension g (h.modifyEdge e f)

theorem Extension.trans {g h k : Graph N E} (first : Extension g h) (second : Extension h k) :
    Extension g k := by
  induction second with
  | refl => exact first
  | addVertex payload _ ih => exact ih.addVertex payload
  | addEdge _ added ih => exact ih.addEdge added
  | modifyVertex v f _ ih => exact ih.modifyVertex v f
  | modifyEdge e f _ ih => exact ih.modifyEdge e f

theorem Extension.consistent {g h : Graph N E} (extension : Extension g h)
    (consistent : g.Consistent) : h.Consistent := by
  induction extension with
  | refl => exact consistent
  | addVertex payload _ ih => exact ih.addVertexAt _ payload
  | addEdge _ added ih => exact ih.addEdgeAt added
  | modifyVertex v f _ ih => exact ih.of_sameShape (sameShape_modifyVertex _ v f)
  | modifyEdge e f _ ih => exact ih.of_sameShape (sameShape_modifyEdge _ e f)

theorem SameShape.vertexRegister {g h : Graph N E} (same : SameShape g h) :
    h.vertexRegister = g.vertexRegister := by
  unfold Graph.vertexRegister
  rw [same.nextVertexIndex, funext same.vertices]

theorem SameShape.edgeRegister {g h : Graph N E} (same : SameShape g h) :
    h.edgeRegister = g.edgeRegister := by
  have indices : ∀ e, (h.edge? e).map (·.index) = (g.edge? e).map (·.index) := by
    intro e
    have both := congrArg (Option.map Prod.fst) (same.edges e)
    rwa [Option.map_map, Option.map_map] at both
  unfold Graph.edgeRegister
  rw [same.nextEdgeIndex, funext indices]

end Graph

namespace Register

variable {kind : Kind} {r s t : Register kind} {place : Handle kind → Option (Handle kind)}
  {given : Handle kind → Prop}

/-- The counter of `r` is beyond every index that is in use in `t`. -/
def Covers (r t : Register kind) : Prop :=
  ∀ h index, t.index? h = some index → (StableIndex.next index).toNat ≤ r.counter.toNat

def Bounded (r : Register kind) : Prop := r.Covers r

/-- `s` has one more element than `r`, in the slot `n` that follows those in use. -/
structure Enters (r s : Register kind) (n : Nat) (index : StableIndex) : Prop where
  above : ∀ h i, r.index? h = some i → h.slot < n
  entry : ∀ h, s.index? h = if h.slot = n then some index else r.index? h
  counter : s.counter = r.counter.advance index

/-- The elements of `r` that have a place are found there in `s`, where several go to one place the
first of them. Every other element of `s` has the index that the counter had reached in its turn,
unless its index was given. -/
structure Succession (r s : Register kind) (place : Handle kind → Option (Handle kind))
    (given : Handle kind → Prop) : Prop where
  kept : ∀ v w, place v = some w → ∃ u, u.slot ≤ v.slot ∧ place u = some w ∧
    ∃ index, r.index? u = some index ∧ s.index? w = some index
  counter : r.counter.toNat ≤ s.counter.toNat
  bounded : s.Bounded
  fresh : ∀ w index, s.index? w = some index → (∀ v, place v ≠ some w) → ¬ given w →
    r.counter.toNat ≤ index.toNat ∧ ∀ u earlier, u < w → s.index? u = some earlier →
      (StableIndex.next earlier).toNat ≤ index.toNat

/-- The elements of `r` that have a place keep their indices. Every other element of `s` whose index
was not given has a greater one than all elements of the registers in `past` and all that stand
before it, but for those with the greatest index of all, which has no successor. -/
structure Renews (past : List (Register kind)) (r s : Register kind)
    (place : Handle kind → Option (Handle kind)) (given : Handle kind → Prop) : Prop where
  kept : ∀ v w, place v = some w → ∃ u, u.slot ≤ v.slot ∧ place u = some w ∧
    ∃ index, r.index? u = some index ∧ s.index? w = some index
  greater : ∀ w index, s.index? w = some index → (∀ v, place v ≠ some w) → ¬ given w →
    ∀ earlier, ((∃ t ∈ past, ∃ h, t.index? h = some earlier) ∨
      ∃ u, u < w ∧ s.index? u = some earlier) → earlier ≠ 4294967295 → earlier < index

theorem Succession.renews (h : Succession r s place given) {past : List (Register kind)}
    (covered : ∀ t ∈ past, r.Covers t) : Renews past r s place given := by
  refine ⟨h.kept, fun w index found absent free earlier before other => ?_⟩
  obtain ⟨beyond, later⟩ := h.fresh w index found absent free
  have reached : (StableIndex.next earlier).toNat ≤ index.toNat := by
    rcases before with ⟨t, ht, x, there⟩ | ⟨u, less, there⟩
    · exact Nat.le_trans (covered t ht x earlier there) beyond
    · exact later u earlier less there
  rw [StableIndex.toNat_next] at reached
  have small := earlier.toNat_lt
  have notLast : earlier.toNat ≠ 4294967295 := fun same => other (UInt32.toNat_inj.mp same)
  exact UInt32.lt_iff_toNat_lt.mpr (by omega)

/-- Every element stays where it is. -/
def stay (r : Register kind) (h : Handle kind) : Option (Handle kind) :=
  (r.index? h).map fun _ => h

theorem stay_eq_some_iff {h h' : Handle kind} :
    r.stay h = some h' ↔ h = h' ∧ (r.index? h).isSome = true := by
  unfold stay
  cases r.index? h <;> simp

theorem Bounded.succession (bounded : r.Bounded) (given : Handle kind → Prop) :
    Succession r r r.stay given where
  kept v w placed := by
    obtain ⟨rfl, used⟩ := stay_eq_some_iff.mp placed
    obtain ⟨index, found⟩ := Option.isSome_iff_exists.mp used
    exact ⟨v, Nat.le_refl _, placed, index, found, found⟩
  counter := Nat.le_refl _
  bounded := bounded
  fresh w index found absent _ :=
    absurd (stay_eq_some_iff.mpr ⟨rfl, found ▸ rfl⟩) (absent w)

/-- One more element: it takes the counter as its index, or its index is given. -/
theorem Succession.enter (h : Succession r s place given) {n : Nat} {index : StableIndex}
    (enters : Enters s t n index) (own : index = s.counter ∨ given ⟨n⟩) :
    Succession r t place given := by
  obtain ⟨above, entry, counter⟩ := enters
  have counters : t.counter.toNat = max s.counter.toNat (StableIndex.next index).toNat := by
    rw [counter, StableIndex.toNat_advance]
  have old : ∀ x i, s.index? x = some i → t.index? x = some i := by
    intro x i found
    rw [entry, if_neg (Nat.ne_of_lt (above x i found)), found]
  refine ⟨?_, by have := h.counter; omega, ?_, ?_⟩
  · intro v w placed
    obtain ⟨u, before, placed', i, found, there⟩ := h.kept v w placed
    exact ⟨u, before, placed', i, found, old w i there⟩
  · intro x i found
    rw [entry] at found
    split at found
    · cases found
      omega
    · have := h.bounded x i found
      omega
  · intro w i found absent free
    rw [entry] at found
    split at found
    · next last =>
      cases found
      obtain rfl : w = ⟨n⟩ := Handle.ext_slot last
      rcases own with rfl | supplied
      · refine ⟨h.counter, fun u earlier before there => h.bounded u earlier ?_⟩
        rwa [entry, if_neg (Nat.ne_of_lt before)] at there
      · exact absurd supplied free
    · obtain ⟨beyond, later⟩ := h.fresh w i found absent free
      refine ⟨beyond, fun u earlier before there => later u earlier before ?_⟩
      have inside := above w i found
      rwa [entry, if_neg (Nat.ne_of_lt (Nat.lt_trans before inside))] at there

end Register

open Register

namespace Graph

variable {g h : Graph N E}

theorem enters_addVertexAt (g : Graph N E) (index : StableIndex) (payload : N) :
    Enters g.vertexRegister (g.addVertexAt index payload).vertexRegister g.order index where
  above _ _ := slot_lt_order
  entry v := by
    simp only [vertexRegister, vertex?_addVertexAt]
    split <;> rfl
  counter := rfl

theorem enters_addEdgeAt {a b : VertexId} {index : StableIndex} {payload : E}
    (added : g.addEdgeAt a b index payload = .ok h) :
    Enters g.edgeRegister h.edgeRegister g.size index where
  above _ _ := slot_lt_size
  entry e := by
    simp only [edgeRegister, edge?_addEdgeAt added]
    split <;> rfl
  counter := by
    unfold addEdgeAt at added
    split at added
    · cases added
    · split at added
      · cases added
      · cases added
        rfl

theorem vertexRegister_addEdgeAt {a b : VertexId} {index : StableIndex} {payload : E}
    (added : g.addEdgeAt a b index payload = .ok h) : h.vertexRegister = g.vertexRegister := by
  obtain ⟨vertices, counter⟩ := sameVertices_addEdgeAt added
  simp only [vertexRegister, vertex?, vertices, counter]

theorem Consistent.boundedVertices (consistent : g.Consistent) : g.vertexRegister.Bounded := by
  intro v index found
  obtain ⟨record, there, rfl⟩ := Option.map_eq_some_iff.mp found
  exact consistent.vertexIndex v record there

theorem Consistent.boundedEdges (consistent : g.Consistent) : g.edgeRegister.Bounded := by
  intro e index found
  obtain ⟨record, there, rfl⟩ := Option.map_eq_some_iff.mp found
  exact consistent.edgeIndex e record there

/-- What a callback adds takes its index from the counter. -/
theorem Extension.succession {rv : Register .vertex} {re : Register .edge}
    {place : VertexId → Option VertexId} {edgePlace : EdgeId → Option EdgeId}
    {given : VertexId → Prop} {edgeGiven : EdgeId → Prop} (extension : Extension g h)
    (vertices : Succession rv g.vertexRegister place given)
    (edges : Succession re g.edgeRegister edgePlace edgeGiven) :
    Succession rv h.vertexRegister place given ∧
      Succession re h.edgeRegister edgePlace edgeGiven := by
  induction extension with
  | refl => exact ⟨vertices, edges⟩
  | addVertex payload _ ih =>
    exact ⟨ih.1.enter (enters_addVertexAt _ _ payload) (.inl rfl), ih.2⟩
  | addEdge _ added ih =>
    exact ⟨vertexRegister_addEdgeAt added ▸ ih.1, ih.2.enter (enters_addEdgeAt added) (.inl rfl)⟩
  | @modifyVertex h v f _ ih =>
    have same := sameShape_modifyVertex h v f
    exact ⟨same.vertexRegister ▸ ih.1, same.edgeRegister ▸ ih.2⟩
  | @modifyEdge h e f _ ih =>
    have same := sameShape_modifyEdge h e f
    exact ⟨same.vertexRegister ▸ ih.1, same.edgeRegister ▸ ih.2⟩

end Graph

/-! ## Records given in order -/

section Stamping

variable {α R : Type} {known? : α → Option R} {xs : List α}

theorem le_counterAfter (known? : α → Option R) (counter : StableIndex) (xs : List α) :
    counter.toNat ≤ (counterAfter known? counter xs).toNat := by
  induction xs generalizing counter with
  | nil => exact Nat.le_refl _
  | cons x rest ih =>
    rw [counterAfter_cons]
    refine Nat.le_trans ?_ (ih _)
    split
    · rw [StableIndex.toNat_next]
      have := counter.toNat_lt
      omega
    · exact Nat.le_refl _

theorem counterAfter_take_le (known? : α → Option R) (counter : StableIndex) (xs : List α)
    {m n : Nat} (before : m ≤ n) : (counterAfter known? counter (xs.take m)).toNat ≤
      (counterAfter known? counter (xs.take n)).toNat := by
  obtain ⟨rest, same⟩ := List.take_prefix_take_left (l := xs) before
  rw [← same, counterAfter_append]
  exact le_counterAfter known? _ rest

/-- The counter moves on once an element took its index. -/
theorem next_le_counterAfter {counter : StableIndex} {m n : Nat} (before : m < n) {x : α}
    (found : xs[m]? = some x) (unknown : known? x = none) :
    (StableIndex.next (counterAfter known? counter (xs.take m))).toNat ≤
      (counterAfter known? counter (xs.take n)).toNat := by
  refine Nat.le_trans (Nat.le_of_eq ?_) (counterAfter_take_le known? counter xs before)
  obtain ⟨inside, rfl⟩ := List.getElem?_eq_some_iff.mp found
  rw [List.take_succ_eq_append_getElem inside, counterAfter_append, counterAfter_cons, unknown]
  rfl

/-- Where the known elements are those that have a place, the others follow on the old counter. -/
theorem succession_stamp (known? : α → Option R) (make : StableIndex → α → R) (xs : List α)
    (index : R → StableIndex) {kind : Kind} {r s : Register kind}
    {place : Handle kind → Option (Handle kind)}
    (made : ∀ i x, index (make i x) = i)
    (old : ∀ x ∈ xs, ∀ record, known? x = some record →
      (StableIndex.next (index record)).toNat ≤ r.counter.toNat)
    (records : ∀ h, s.index? h = ((stamp known? make r.counter xs)[h.slot]?).map index)
    (counter : s.counter = counterAfter known? r.counter xs)
    (kept : ∀ v w, place v = some w → ∃ u, u.slot ≤ v.slot ∧ place u = some w ∧
      ∃ x record, xs[w.slot]? = some x ∧ known? x = some record ∧ r.index? u = some (index record))
    (placed : ∀ w x record, xs[w.slot]? = some x → known? x = some record → ∃ v, place v = some w)
    (given : Handle kind → Prop) : Succession r s place given := by
  have entry : ∀ h i, s.index? h = some i → ∃ x, xs[h.slot]? = some x ∧
      ((∃ record, known? x = some record ∧ index record = i) ∨
        known? x = none ∧ counterAfter known? r.counter (xs.take h.slot) = i) := by
    intro h i found
    rw [records, getElem?_stamp, Option.map_map] at found
    obtain ⟨x, there, rfl⟩ := Option.map_eq_some_iff.mp found
    refine ⟨x, there, ?_⟩
    cases known : known? x with
    | none => exact .inr ⟨rfl, by simp [known, made]⟩
    | some record => exact .inl ⟨record, rfl, by simp [known]⟩
  -- Whatever stands before a slot was there before, or took its index earlier.
  have earlier : ∀ n u i, u.slot < n → s.index? u = some i →
      (StableIndex.next i).toNat ≤ (counterAfter known? r.counter (xs.take n)).toNat := by
    intro n u i before found
    obtain ⟨x, there, ⟨record, known, rfl⟩ | ⟨unknown, rfl⟩⟩ := entry u i found
    · exact Nat.le_trans (old x (List.mem_of_getElem? there) record known) (le_counterAfter _ _ _)
    · exact next_le_counterAfter before there unknown
  refine ⟨?_, counter ▸ le_counterAfter known? r.counter xs, ?_, ?_⟩
  · intro v w here
    obtain ⟨u, before, here', x, record, there, known, found⟩ := kept v w here
    refine ⟨u, before, here', index record, found, ?_⟩
    rw [records, getElem?_stamp, there]
    simp [known]
  · intro h i found
    obtain ⟨x, there, -⟩ := entry h i found
    have inside := (List.getElem?_eq_some_iff.mp there).1
    have whole := earlier xs.length h i inside found
    rwa [List.take_length, ← counter] at whole
  · intro w i found absent _
    obtain ⟨x, there, ⟨record, known, -⟩ | ⟨-, rfl⟩⟩ := entry w i found
    · obtain ⟨v, there'⟩ := placed w x record there known
      exact absurd there' (absent v)
    · exact ⟨le_counterAfter _ _ _, fun u j before => earlier w.slot u j before⟩

end Stamping

end GraphSplice
