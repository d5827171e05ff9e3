/-!
Sources of randomness. Three things are drawn from a source: a number below a range, one of
several items, and the items in a random order. A source makes them as it pleases; the laws say
what may be counted on whatever is drawn.
-/

namespace GraphSplice

/-- Each draw answers with what is drawn and the source after it. -/
class RandomSource (σ : Type) where
  /-- A number below a range that is not zero. -/
  below : Nat → σ → Nat × σ
  /-- One of the items, if there are any. -/
  choose {α : Type} : List α → σ → Option α × σ
  /-- The items in a random order. -/
  shuffle {α : Type} : List α → σ → List α × σ

/-- A number is below its range, a choice is one of the items unless there are none, and a shuffle
rearranges them. -/
class LawfulRandomSource (σ : Type) [RandomSource σ] : Prop where
  below_lt {range : Nat} (positive : 0 < range) (s : σ) : (RandomSource.below range s).1 < range
  mem_of_choose {α : Type} {items : List α} {s : σ} {x : α}
    (h : (RandomSource.choose items s).1 = some x) : x ∈ items
  eq_nil_of_choose {α : Type} {items : List α} {s : σ}
    (h : (RandomSource.choose items s).1 = none) : items = []
  perm_shuffle {α : Type} (items : List α) (s : σ) : (RandomSource.shuffle items s).1.Perm items

end GraphSplice
