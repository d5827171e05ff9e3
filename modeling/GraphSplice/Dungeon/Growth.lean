import GraphSplice.Dungeon
import GraphSplice.Random.Source

/-!
Random growth of a level, by one occurrence of one rule at a time or by an independent batch of
occurrences of all rules.
-/

namespace GraphSplice.Dungeon

variable {σ : Type} [RandomSource σ]

/-- What a round of growth answers: the grown level, or none if no rule applied. -/
structure Growth (σ : Type) where
  result : Except ApplyError (Option (Host dungeon))
  stats : DungeonStats
  source : σ
  events : List Event

def Growth.ofReport (before : List Event) (source : σ)
    (r : Report DungeonStats (Derivation dungeon)) : Growth σ :=
  ⟨r.result.map fun d => some d.graph, r.state, source, before ++ r.events⟩

/-- Applies one of the given rules, chosen at random, at an occurrence chosen at random. -/
def growStep (g : Grammar dungeon) (rules : List RuleId) (level : Host dungeon)
    (stats : DungeonStats) (source : σ) : Growth σ :=
  let (i, source) := RandomSource.below rules.length source
  let rule := rules.getD i .unused
  let seen := g.find rule level ()
  match seen.result with
  | .error e => ⟨.error e, stats, source, seen.events⟩
  | .ok occurrences =>
    match RandomSource.choose occurrences source with
    | (none, source) => ⟨.ok none, stats, source, seen.events⟩
    | (some o, source) => .ofReport seen.events source (g.deriveOne level rule o stats)

/-- Applies those of the occurrences of all rules, in random order, that are independent of the
ones before them. -/
def growBatch (g : Grammar dungeon) (level : Host dungeon) (stats : DungeonStats) (source : σ) :
    Growth σ :=
  let seen := g.findAll level ()
  if seen.applications = [] then ⟨.ok none, stats, source, seen.events⟩
  else
    let (candidates, source) := RandomSource.shuffle seen.applications source
    match g.select level candidates with
    | .error e => ⟨.error e, stats, source, seen.events⟩
    | .ok (batch, events) =>
      .ofReport (seen.events ++ events) source (g.derive level batch stats)

end GraphSplice.Dungeon
