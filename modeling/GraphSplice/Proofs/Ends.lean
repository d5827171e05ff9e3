import GraphSplice.Ends

/-!
How joining and touching go together, and with maps of the ends.
-/

namespace GraphSplice

namespace Side

theorem forall_iff {P : Side → Prop} : (∀ side, P side) ↔ P .first ∧ P .second := by
  refine ⟨fun h => ⟨h .first, h .second⟩, ?_⟩
  rintro ⟨first, second⟩ (_ | _)
  · exact first
  · exact second

theorem exists_iff {P : Side → Prop} : (∃ side, P side) ↔ P .first ∨ P .second := by
  constructor
  · rintro ⟨_ | _, h⟩
    · exact .inl h
    · exact .inr h
  · rintro (h | h)
    · exact ⟨_, h⟩
    · exact ⟨_, h⟩

end Side

namespace Ends

universe u v
variable {α : Type u} {β : Type v}

theorem mem_toList {x : Ends α} {a : α} : a ∈ x.toList ↔ x.Touches a := by
  simp [toList, Touches, eq_comm]

theorem Joins.touches {x : Ends α} {a b : α} (h : x.Joins a b) : x.Touches a ∧ x.Touches b := by
  rcases h with rfl | rfl <;> simp [Touches]

theorem Joins.map (f : α → β) {x : Ends α} {a b : α} (h : x.Joins a b) :
    (x.map f).Joins (f a) (f b) := by
  rcases h with rfl | rfl
  · exact .inl rfl
  · exact .inr rfl

theorem joins_map_iff {f : α → β} (injective : ∀ a b, f a = f b → a = b) {x : Ends α} {a b : α} :
    (x.map f).Joins (f a) (f b) ↔ x.Joins a b := by
  refine ⟨fun h => ?_, .map f⟩
  obtain ⟨p, q⟩ := x
  rcases h with same | same
  · obtain ⟨first, second⟩ := Ends.mk.inj same
    cases injective _ _ first
    cases injective _ _ second
    exact .inl rfl
  · obtain ⟨first, second⟩ := Ends.mk.inj same
    cases injective _ _ first
    cases injective _ _ second
    exact .inr rfl

/-- What joins the ends of one edge joins the ends of every parallel one. -/
theorem Joins.of_parallel {x y : Ends α} {a b c d : α} (h : x.Joins a b) (h' : x.Joins c d)
    (hy : y.Joins a b) : y.Joins c d := by
  rcases h with rfl | rfl <;> rcases h' with same | same <;> cases same <;>
    rcases hy with rfl | rfl <;> simp [Joins]

/-- The pair that an edge joins is determined up to order. -/
theorem Joins.unique {x : Ends α} {a b c d : α} (h : x.Joins a b) (h' : x.Joins c d) :
    (c = a ∧ d = b) ∨ (c = b ∧ d = a) := by
  rcases h with rfl | rfl <;> rcases h' with same | same <;> cases same <;> simp

theorem Joins.eq_of_touches {x : Ends α} {a b c : α} (h : x.Joins a b) (hc : x.Touches c) :
    c = a ∨ c = b := by
  rcases h with rfl | rfl <;> rcases hc with rfl | rfl <;> simp

theorem Touches.joins {x : Ends α} {a : α} (h : x.Touches a) : ∃ b, x.Joins a b := by
  obtain ⟨p, q⟩ := x
  rcases h with rfl | rfl
  · exact ⟨q, .inl rfl⟩
  · exact ⟨p, .inr rfl⟩

theorem joins_self (x : Ends α) : x.Joins x.first x.second := .inl rfl

theorem Joins.symm {x y : Ends α} (h : x.Joins y.first y.second) : y.Joins x.first x.second :=
  h.of_parallel x.joins_self y.joins_self

theorem Joins.trans {x y : Ends α} {a b : α} (h : x.Joins y.first y.second) (h' : y.Joins a b) :
    x.Joins a b :=
  y.joins_self.of_parallel h' h

/-- Where `y` joins two elements, so does what joins the ends of `y`, and conversely. -/
theorem joins_congr {x y : Ends α} {a b : α} (h : y.Joins a b) :
    x.Joins y.first y.second ↔ x.Joins a b :=
  ⟨fun joins => joins.trans h, fun joins => h.of_parallel y.joins_self joins⟩

@[simp] theorem get_map (f : α → β) (x : Ends α) (side : Side) :
    (x.map f).get side = f (x.get side) := by
  cases side <;> rfl

@[simp] theorem get_zip (x : Ends α) (y : Ends β) (side : Side) :
    (x.zip y).get side = (x.get side, y.get side) := by
  cases side <;> rfl

/-- Where the map keeps `a` apart from the other ends, what it joins came from a join. -/
theorem Joins.of_map {f : α → β} {x : Ends α} {a : α} {c : β}
    (injective : ∀ side, f (x.get side) = f a → x.get side = a) (h : (x.map f).Joins (f a) c) :
    ∃ b, f b = c ∧ x.Joins a b := by
  obtain ⟨p, q⟩ := x
  rcases h with same | same
  · simp only [Ends.map, Ends.mk.injEq] at same
    obtain rfl : p = a := injective .first same.1
    exact ⟨q, same.2, .inl rfl⟩
  · simp only [Ends.map, Ends.mk.injEq] at same
    obtain rfl : q = a := injective .second same.2
    exact ⟨p, same.1, .inr rfl⟩

theorem touches_iff_get {x : Ends α} {a : α} : x.Touches a ↔ ∃ side, x.get side = a := by
  constructor
  · rintro (h | h)
    · exact ⟨.first, h⟩
    · exact ⟨.second, h⟩
  · rintro ⟨side, rfl⟩
    cases side
    · exact .inl rfl
    · exact .inr rfl

end Ends

end GraphSplice
