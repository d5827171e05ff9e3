import GraphSplice.Proofs.Dungeon.Rounds
import GraphSplice.Proofs.Graph.EdgeList
import GraphSplice.Proofs.Random
import GraphSplice.Random.ChaCha

/-!
Growth from the initial level. Whatever the settings and whatever is drawn, rounds of either kind in
any order succeed, and there is a level after each of them.
-/

namespace GraphSplice.Dungeon

open Relation

/-- What a level is, told by what can be asked of the graph. -/
structure IsLevel (level : Host dungeon) (stats : DungeonStats) : Prop where
  consistent : level.Consistent
  connected : ∀ u v, level.Contains u → level.Contains v →
    ReflTransGen (fun a b => b ∈ level.neighbors a) u v
  loopless : ∀ e, level.isLoop e = false
  simple : ∀ u v, (level.edgesBetween u v).length ≤ 1
  entrance : ∀ v, (∃ room, roomAt? level v = some room ∧ room.kind = .entrance) ↔ v = ⟨0⟩
  final : ∀ v, (∃ room, roomAt? level v = some room ∧ room.kind = .final) ↔ v = ⟨1⟩
  exit : level.degree ⟨1⟩ = 1
  rooms : ∀ v, level.Contains v → v ≠ ⟨0⟩ → v ≠ ⟨1⟩ → roomAt? level v = some ⟨.room, roomSize⟩
  physical : ∀ e record, level.edge? e = some record → record.payload.physical = true
  order : level.order = 2 + stats.roomsCreated
  size : level.size + stats.doorwaysRemoved = 1 + stats.doorwaysCreated

namespace Planned

variable {level : Host dungeon} {stats : DungeonStats} (planned : Planned level stats)

include planned

theorem loopless (e : EdgeId) : level.isLoop e = false := by
  unfold Graph.isLoop
  cases found : level.edge? e with
  | none => rfl
  | some record =>
    simpa using planned.plan.loopless _ (Graph.mem_ends_iff.mpr ⟨e, record, found, rfl⟩)

theorem connected {u v : VertexId} (hu : level.Contains u) (hv : level.Contains v) :
    ReflTransGen (fun a b => b ∈ level.neighbors a) u v := by
  have step : (fun a b => b ∈ level.neighbors a) = Adjacent level.ends := by
    funext a b
    exact propext (Graph.mem_neighbors_iff planned.consistent)
  have : Std.Symm (Adjacent level.ends) := ⟨fun _ _ => Adjacent.symm⟩
  rw [step]
  have back : ReflTransGen (Adjacent level.ends) u ⟨0⟩ :=
    ReflTransGen.stdSymm.symm _ _ (planned.plan.reached u hu)
  exact back.trans (planned.plan.reached v hv)

theorem kind {v : VertexId} {room : Room} (found : roomAt? level v = some room) :
    (room.kind = .entrance ↔ v = ⟨0⟩) ∧ (room.kind = .final ↔ v = ⟨1⟩) := by
  by_cases first : v = ⟨0⟩
  · rw [first, planned.entrance] at found
    cases found
    simp [first]
  by_cases second : v = ⟨1⟩
  · rw [second, planned.final] at found
    cases found
    simp [second]
  have inside : level.Contains v := by
    obtain ⟨record, there, -⟩ := Option.map_eq_some_iff.mp found
    exact Graph.contains_iff.mpr ⟨record, there⟩
  rw [planned.rooms v inside first second] at found
  cases found
  simp [first, second]

theorem isLevel : IsLevel level stats where
  consistent := planned.consistent
  connected _ _ := planned.connected
  loopless := planned.loopless
  simple u v := by
    rw [Graph.length_edgesBetween planned.consistent]
    exact planned.plan.single u v
  entrance v := by
    constructor
    · rintro ⟨room, found, kind⟩
      exact (planned.kind found).1.mp kind
    · rintro rfl
      exact ⟨_, planned.entrance, rfl⟩
  final v := by
    constructor
    · rintro ⟨room, found, kind⟩
      exact (planned.kind found).2.mp kind
    · rintro rfl
      exact ⟨_, planned.final, rfl⟩
  exit := by
    rw [Graph.degree_of_loopless planned.consistent planned.loopless]
    exact planned.plan.final
  rooms := planned.rooms
  physical e record found := by rw [planned.physical e record found]
  order := planned.order
  size := planned.size

end Planned

/-! ## Sessions -/

inductive Round where
  | step
  | batch

variable {σ : Type}

/-- A level with the counts of the callbacks and the random source. -/
structure Session (σ : Type) where
  level : Host dungeon
  stats : DungeonStats
  source : σ

namespace Session

def start (source : σ) : Session σ := ⟨initial, .zero, source⟩

/-- What one round answers. -/
def grow [RandomSource σ] (p : Progress) (s : Session σ) : Round → Growth σ
  | .step => growStep p.grammar p.ids s.level s.stats s.source
  | .batch => growBatch p.grammar s.level s.stats s.source

/-- A round that finds nothing to apply leaves the level as it is. -/
def play [RandomSource σ] (p : Progress) (s : Session σ) (round : Round) :
    Except ApplyError (Session σ) :=
  let growth := s.grow p round
  growth.result.map fun level? => ⟨level?.getD s.level, growth.stats, growth.source⟩

/-- There is nothing to apply: no occurrence of one of the rules, or, for a batch, of any. -/
def Idle (p : Progress) (level : Host dungeon) : Round → Prop
  | .step => ∃ id ∈ p.ids, (p.grammar.find id level ()).result = .ok []
  | .batch => (p.grammar.findAll level ()).applications = []

end Session

namespace Session

variable [RandomSource σ] [LawfulRandomSource σ] {p : Progress} {s : Session σ}

theorem succeeds (ready : p.Ready) (planned : Planned s.level s.stats) (round : Round) :
    (s.grow p round).Succeeds s.level s.stats (Idle p s.level round) := by
  cases round with
  | step => exact growStep_succeeds ready planned s.source
  | batch => exact growBatch_succeeds ready planned s.source

theorem exists_play (ready : p.Ready) (planned : Planned s.level s.stats) (round : Round) :
    ∃ s', s.play p round = .ok s' ∧ Planned s'.level s'.stats := by
  unfold play
  dsimp only
  rcases succeeds ready planned round with ⟨nothing, same, -⟩ | ⟨level', grown, planned', -⟩
  · rw [nothing]
    refine ⟨_, rfl, ?_⟩
    dsimp only
    rw [same]
    exact planned
  · rw [grown]
    exact ⟨_, rfl, planned'⟩

theorem exists_plays (ready : p.Ready) (rounds : List Round) {s : Session σ}
    (planned : Planned s.level s.stats) :
    ∃ s', rounds.foldlM (play p) s = .ok s' ∧ Planned s'.level s'.stats := by
  induction rounds generalizing s with
  | nil => exact ⟨s, rfl, planned⟩
  | cons round rounds ih =>
    obtain ⟨next, played, planned'⟩ := exists_play ready planned round
    rw [List.foldlM_cons, played]
    exact ih planned'

end Session

/-- With the rules registered under any settings, rounds from the initial level are never refused,
whichever there are and whatever is drawn from the source. What they lead to is a level, and the
next round adds rooms to it, or leaves it as it is where there is nothing to apply. -/
theorem levels_grow {σ : Type} [RandomSource σ] [LawfulRandomSource σ] (settings : Settings)
    (source : σ) (rounds : List Round) : ∃ p session, register (.empty settings) = .ok p ∧
      rounds.foldlM (Session.play p) (.start source) = .ok session ∧
      IsLevel session.level session.stats ∧
      ∀ round, ∃ level?, (session.grow p round).result = .ok level? ∧
        (∀ level', level? = some level' → session.level.order < level'.order) ∧
        (level? = none → Session.Idle p session.level round) := by
  obtain ⟨p, registered, ready⟩ := exists_ready settings
  obtain ⟨session, played, planned⟩ :=
    Session.exists_plays ready rounds (s := .start source) planned_initial
  refine ⟨p, session, registered, played, planned.isLevel, ?_⟩
  intro round
  rcases Session.succeeds ready planned round with ⟨nothing, -, idle⟩ | ⟨level', grown, -, more⟩
  · exact ⟨none, nothing, nofun, fun _ => idle⟩
  · refine ⟨some level', grown, ?_, nofun⟩
    rintro _ ⟨⟩
    exact more

/-- Rounds of both kinds, drawn from the keystream of a seed. -/
theorem levels_grow_seeded :
    LawfulRandomSource ChaCha ∧ ∃ p session, register (.empty .default) = .ok p ∧
      [Round.step, .batch, .step].foldlM (Session.play p) (.start (ChaCha.ofSeed 7)) =
        .ok session ∧ IsLevel session.level session.stats := by
  refine ⟨inferInstance, ?_⟩
  obtain ⟨p, session, registered, played, level, -⟩ :=
    levels_grow .default (ChaCha.ofSeed 7) [.step, .batch, .step]
  exact ⟨p, session, registered, played, level⟩

end GraphSplice.Dungeon
