import GraphSplice.Dungeon.Growth
import GraphSplice.Proofs.Dungeon.Level
import GraphSplice.Proofs.Independence

/-!
Rounds of growth. A level grows by rounds of either kind without ever being refused; whatever the
random source gives, it stays a level, and a round that changes it adds rooms.
-/

namespace GraphSplice.Dungeon

variable {σ : Type} {g : Grammar dungeon} {level : Host dungeon}
  {stats : DungeonStats} {batch : List (Resolved dungeon)}

/-! ## One round -/

/-- The round is not refused; it leaves the level and the counts as they were, for the reason given, or
it leads to a level with more rooms. -/
def Growth.Succeeds (level : Host dungeon) (stats : DungeonStats) (idle : Prop)
    (growth : Growth σ) : Prop :=
  (growth.result = .ok none ∧ growth.stats = stats ∧ idle) ∨
    ∃ level', growth.result = .ok (some level') ∧ Planned level' growth.stats ∧
      level.order < level'.order

theorem addedVertices_of_mem : ∀ rule ∈ growthRules, 0 < rule.addedVertices.length := by
  apply forall_growthRules <;> decide

theorem addedOrder_pos (rules : ∀ r ∈ batch, r.rule ∈ growthRules) (nonempty : batch ≠ []) :
    0 < addedOrder batch := by
  cases batch with
  | nil => exact absurd rfl nonempty
  | cons r rest =>
    have first := addedVertices_of_mem r.rule (rules r List.mem_cons_self)
    rw [addedOrder, List.flatMap_cons, List.length_append]
    omega

theorem Planned.succeeds (planned : Planned level stats) (grown : g.Grown)
    {applications : List Application} (resolved : g.resolveAll level applications = .ok batch)
    (separate : Separate level batch) (grows : ∀ r ∈ batch, Grows level r) (nonempty : batch ≠ [])
    (idle : Prop) (events : List Event) (source : σ) :
    (Growth.ofReport events source (g.derive level applications stats)).Succeeds level stats
      idle := by
  obtain ⟨d, derived, planned', order⟩ := planned.derive grown resolved separate grows
  refine .inr ⟨d.graph, ?_, planned', ?_⟩
  · unfold Growth.ofReport
    rw [derived]
    rfl
  · have more := addedOrder_pos (fun r hr => (grows r hr).rule) nonempty
    omega

/-- What is kept of occurrences of the rules is a batch that keeps apart. -/
theorem exists_batch (grown : g.Grown) (consistent : level.Consistent)
    {candidates : List Application} (nonempty : candidates ≠ [])
    (each : ∀ app ∈ candidates, ∃ r, Grows level r ∧ app.resolve g.rules level = .ok r) :
    ∃ kept batch, g.selectIndependent level candidates = .ok kept ∧
      g.resolveAll level kept = .ok batch ∧ batch ≠ [] ∧ Separate level batch ∧
      ∀ r ∈ batch, Grows level r := by
  have admitted : ∀ app ∈ candidates, (app.resolve g.rules level).isOk = true := by
    intro app happ
    obtain ⟨r, -, resolves⟩ := each app happ
    rw [resolves]
    rfl
  obtain ⟨kept, batch, selected, inside, resolved, independent⟩ :=
    Grammar.exists_selection admitted
  have distinct : ∀ app ∈ kept, app.occurrence.vertices.Nodup := by
    intro app happ
    obtain ⟨r, grows, resolves⟩ := each app (inside app happ)
    rw [← Application.vertices_of_resolve resolves]
    exact grows.distinct.1
  have apart : Apart level batch :=
    Grammar.apart_of_independent grown.sound consistent resolved distinct independent
  have grows : ∀ r ∈ batch, Grows level r := by
    intro r hr
    obtain ⟨i, found⟩ := List.getElem?_of_mem hr
    obtain ⟨app, there, resolves⟩ := (forall₂_getElem? resolved i).2 r found
    obtain ⟨r', grows, resolves'⟩ := each app (inside app (List.mem_of_getElem? there))
    cases resolves.symm.trans resolves'
    exact grows
  have some : batch ≠ [] := by
    rintro rfl
    cases resolved
    exact Grammar.ne_nil_of_selectIndependent nonempty selected rfl
  exact ⟨kept, batch, selected, mapM_of_forall₂ resolved, some,
    ⟨apart.valid, fun r hr => (grows r hr).distinct,
      fun r hr => splicesApart_of_mem r.rule (grows r hr).rule, apart.spares⟩, grows⟩

section Ready

variable {p : Progress} (ready : p.Ready)

include ready

theorem Progress.Ready.mem_growthRules {id : RuleId} {rule : Rule dungeon}
    (registered : p.grammar.rule? id = some rule) : rule ∈ growthRules := by
  unfold Grammar.rule? at registered
  rw [ready.rules] at registered
  exact Array.mem_toList_iff.mpr (Array.mem_of_getElem? registered)

theorem Progress.Ready.exists_rule : ∀ id ∈ p.ids, ∃ rule, p.grammar.rule? id = some rule := by
  unfold Grammar.rule?
  rw [ready.rules, ready.ids]
  simp only [List.forall_mem_cons]
  exact ⟨⟨_, rfl⟩, ⟨_, rfl⟩, ⟨_, rfl⟩, nofun⟩

/-- What a search finds can be applied. -/
theorem grows_of_mem_occurrences (consistent : level.Consistent) {id : RuleId}
    {rule : Rule dungeon} (registered : p.grammar.rule? id = some rule) {s : Unit} {o : Occurrence}
    (h : o ∈ (rule.occurrences level p.grammar.settings.matchLimit s).1) :
    Grows level ⟨rule, o⟩ := by
  have member := ready.mem_growthRules registered
  obtain ⟨occurs, binding, valid⟩ := Rule.occurs_of_mem_occurrences
    (ready.grown.sound.rules _ rule registered).1 consistent (oblivious_of_mem rule member) h
  exact ⟨member, valid, ⟨occurs.nodup, binding.nodup⟩, occurs.passes⟩

theorem resolve_of_mem_occurrences (consistent : level.Consistent) {app : Application}
    {rule : Rule dungeon} (registered : p.grammar.rule? app.rule = some rule) {s : Unit}
    (h : app.occurrence ∈ (rule.occurrences level p.grammar.settings.matchLimit s).1) :
    app.resolve p.grammar.rules level = .ok ⟨rule, app.occurrence⟩ := by
  rw [Grammar.resolve_eq app registered]
  exact Rule.resolve_of_valid (grows_of_mem_occurrences ready consistent registered h).valid

theorem exists_grows_of_mem_findAll (consistent : level.Consistent) (s : Unit) :
    ∀ app ∈ (p.grammar.findAll level s).applications, ∃ r, Grows level r ∧
      app.resolve p.grammar.rules level = .ok r := by
  intro app happ
  obtain ⟨rule, _, registered, member⟩ :=
    Grammar.occurs_of_mem_findAll ready.grown.sound s app happ
  exact ⟨_, grows_of_mem_occurrences ready consistent registered member,
    resolve_of_mem_occurrences ready consistent registered member⟩

variable [RandomSource σ] [LawfulRandomSource σ]

theorem growStep_succeeds (planned : Planned level stats) (source : σ) :
    (growStep p.grammar p.ids level stats source).Succeeds level stats
      (∃ id ∈ p.ids, (p.grammar.find id level ()).result = .ok []) := by
  have three : 0 < p.ids.length := by
    rw [ready.ids]
    exact Nat.succ_pos 2
  have below := LawfulRandomSource.below_lt three source
  unfold growStep
  generalize RandomSource.below p.ids.length source = drawn at below ⊢
  obtain ⟨i, source'⟩ := drawn
  have drawn : p.ids.getD i .unused ∈ p.ids := by
    rw [List.getD_eq_getElem p.ids _ below]
    exact List.getElem_mem below
  obtain ⟨rule, registered⟩ := ready.exists_rule _ drawn
  dsimp only
  rw [Grammar.result_find registered]
  dsimp only
  cases chosen : RandomSource.choose
    (rule.occurrences level p.grammar.settings.matchLimit ()).1 source' with
  | mk chosen? source'' =>
    cases chosen? with
    | none =>
      refine .inl ⟨rfl, rfl, _, drawn, ?_⟩
      rw [Grammar.result_find registered,
        LawfulRandomSource.eq_nil_of_choose (congrArg Prod.fst chosen)]
    | some o =>
      have member := LawfulRandomSource.mem_of_choose (congrArg Prod.fst chosen)
      have grows := grows_of_mem_occurrences ready planned.consistent registered member
      have resolves : Application.resolve ⟨_, o⟩ p.grammar.rules level = .ok ⟨rule, o⟩ :=
        resolve_of_mem_occurrences ready planned.consistent registered member
      exact planned.succeeds ready.grown (Grammar.resolveAll_singleton resolves)
        (.singleton grows.valid grows.distinct (splicesApart_of_mem rule grows.rule))
        (by simpa using grows) (List.cons_ne_nil _ _) _ _ _

theorem growBatch_succeeds (planned : Planned level stats) (source : σ) :
    (growBatch p.grammar level stats source).Succeeds level stats
      ((p.grammar.findAll level ()).applications = []) := by
  unfold growBatch
  dsimp only
  split
  · next nothing => exact .inl ⟨rfl, rfl, nothing⟩
  · next some =>
    have shuffled := LawfulRandomSource.perm_shuffle (p.grammar.findAll level ()).applications source
    generalize RandomSource.shuffle (p.grammar.findAll level ()).applications source = drawn
      at shuffled ⊢
    obtain ⟨candidates, source'⟩ := drawn
    have nonempty : candidates ≠ [] := by
      rintro rfl
      exact some shuffled.nil_eq.symm
    obtain ⟨kept, batch, selected, resolved, some', separate, grows⟩ :=
      exists_batch ready.grown planned.consistent nonempty fun app happ =>
        exists_grows_of_mem_findAll ready planned.consistent () app (shuffled.mem_iff.mp happ)
    unfold Grammar.select
    rw [selected]
    exact planned.succeeds ready.grown resolved separate grows some' _ _ _

end Ready

end GraphSplice.Dungeon
