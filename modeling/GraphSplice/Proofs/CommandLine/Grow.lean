import GraphSplice.CommandLine.Run
import GraphSplice.Proofs.Dungeon.Growth

/-!
The grow command. It exits with success under all settings, for every number of rounds and every
seed, and prints a level.
-/

namespace GraphSplice.CommandLine

open GraphSplice.Dungeon

/-- The kind of the rounds that the command plays. -/
def roundKind (batch : Bool) : Round := if batch then .batch else .step

theorem grow_roundKind (p : Dungeon.Progress) (batch : Bool) (level : Level) :
    Session.grow p ⟨level.graph, level.stats, level.source⟩ (roundKind batch) =
      if batch then growBatch p.grammar level.graph level.stats level.source
      else growStep p.grammar p.ids level.graph level.stats level.source := by
  cases batch with
  | false => rw [if_neg Bool.false_ne_true, roundKind, if_neg Bool.false_ne_true, Session.grow]
  | true => rw [if_pos rfl, roundKind, if_pos rfl, Session.grow]

theorem exists_growLevel {p : Dungeon.Progress} (ready : p.Ready) (batch : Bool) (total : Nat)
    (left : Nat) (level : Level) (planned : Planned level.graph level.stats) :
    ∃ level', growLevel p.grammar p.ids batch total left level = .ok level' ∧
      Planned level'.graph level'.stats := by
  induction left generalizing level with
  | zero => exact ⟨level, rfl, planned⟩
  | succ left ih =>
    rw [growLevel, ← grow_roundKind]
    rcases Session.succeeds (s := ⟨level.graph, level.stats, level.source⟩) ready planned
      (roundKind batch) with ⟨nothing, same, -⟩ | ⟨level', grown, planned', -⟩
    · rw [nothing]
      refine ih _ ?_
      dsimp only
      rw [same]
      exact planned
    · rw [grown]
      exact ih _ planned'

theorem exists_level_of_runGrow (s : Settings) (options : GrowOptions) (d : Directory) :
    ∃ level, IsLevel level.graph level.stats ∧
      runGrow s options d = succeed (if options.json then (levelJson level).pretty ++ "\n"
        else unlines (levelSummary level)) d := by
  obtain ⟨p, registered, ready⟩ := exists_ready s
  obtain ⟨level, grown, planned⟩ := exists_growLevel ready options.batch options.steps
    options.steps ⟨initial, .zero, .ofSeed options.seed⟩ planned_initial
  refine ⟨level, planned.isLevel, ?_⟩
  unfold runGrow
  rw [registered]
  dsimp only
  rw [grown]

end GraphSplice.CommandLine
