import GraphSplice.Proofs.ConflictTable
import GraphSplice.Proofs.Numbering
import GraphSplice.Proofs.Samples

/-!
Registration as a history of attempts. Of the attempts only those count that come to a rule; these
rules alone decide the table of conflicts and whether the grammar is armed. The analysis and the
compilation do not look at the number of a rule, so with the order of the attempts nothing changes
but the numbers.
-/

namespace GraphSplice

variable {D : Domain}

/-! ## Numbers of rules -/

namespace Rule

/-- The rule under another number. -/
def numbered (r : Rule D) (id : RuleId) : Rule D := { r with id := id }

theorem numbered_numbered (r : Rule D) (a b : RuleId) :
    (r.numbered a).numbered b = r.numbered b := rfl

/-- The analysis does not look at numbers. -/
theorem conflicts_numbered (victim cutter : Rule D) (a b : RuleId) :
    (victim.numbered a).conflicts (cutter.numbered b) = victim.conflicts cutter := rfl

end Rule

theorem Draft.compile_numbered (d : Draft D) (id : RuleId) (accepts : Option (OccurrenceCheck D)) :
    d.compile id accepts = (d.compile ⟨0⟩ accepts).map (·.numbered id) := by
  unfold compile
  split
  · rfl
  · cases d.matchedEdges with
    | error e => rfl
    | ok edges => cases d.addedEdges <;> rfl

namespace Grammar

/-! ## Registration of many rules -/

/-- An attempt to register a rule that is carried to its end. -/
structure Registration (D : Domain) where
  declarations : List (Declaration D)
  accepts : Option (OccurrenceCheck D)

/-- The grammar after some attempts, those that are refused included. -/
def registerAll (settings : Settings) (registrations : List (Registration D)) : Grammar D :=
  registrations.foldl (fun g x => (g.add (Draft.empty.declareAll x.declarations) x.accepts).grammar)
    (.empty settings)

/-- The rule that comes of the registration, if any, under the first number. -/
def Registration.rule? (x : Registration D) : Option (Rule D) :=
  ((Draft.empty.declareAll x.declarations).compile ⟨0⟩ x.accepts).toOption

variable {g : Grammar D}

/-- A refused draft leaves no trace, any other one the rule under the next number. -/
theorem grammar_add (g : Grammar D) (d : Draft D) (accepts : Option (OccurrenceCheck D)) :
    (g.add d accepts).grammar = match (d.compile ⟨0⟩ accepts).toOption with
      | none => g
      | some rule => (g.register (rule.numbered g.nextRule)).1 := by
  unfold add
  rw [Draft.compile_numbered]
  cases d.compile ⟨0⟩ accepts <;> rfl

theorem registerAll_concat (settings : Settings) (registrations : List (Registration D))
    (x : Registration D) : registerAll settings (registrations ++ [x]) =
      ((registerAll settings registrations).add (Draft.empty.declareAll x.declarations)
        x.accepts).grammar :=
  List.foldl_concat _ _ _ _

theorem grown_registerAll (settings : Settings) (registrations : List (Registration D)) :
    (registerAll settings registrations).Grown := by
  induction registrations using List.reverseRecOn with
  | nil => exact .empty settings
  | append_singleton xs x ih =>
    rw [registerAll_concat]
    exact ih.add x.declarations x.accepts

theorem rules_registerAll (settings : Settings) (registrations : List (Registration D)) :
    (registerAll settings registrations).rules.toList =
      (registrations.filterMap Registration.rule?).mapIdx fun i rule => rule.numbered ⟨i⟩ := by
  induction registrations using List.reverseRecOn with
  | nil => rfl
  | append_singleton xs x ih =>
    have size := congrArg List.length ih
    rw [Array.length_toList, List.length_mapIdx] at size
    rw [registerAll_concat, grammar_add, ← Registration.rule?, List.filterMap_append]
    cases outcome : x.rule? with
    | none => rw [List.filterMap_cons_none outcome, List.filterMap_nil, List.append_nil, ih]
    | some rule =>
      rw [List.filterMap_cons_some outcome, List.filterMap_nil, List.mapIdx_concat, ← ih, ← size]
      exact Array.toList_push ..

theorem getElem?_registerAll (settings : Settings) (registrations : List (Registration D))
    (i : Nat) : (registerAll settings registrations).rules[i]? =
      ((registrations.filterMap Registration.rule?)[i]?).map (·.numbered ⟨i⟩) := by
  rw [← Array.getElem?_toList, rules_registerAll, List.getElem?_mapIdx]

/-! ## Settings -/

/-- The grammar under other settings. -/
def under (g : Grammar D) (settings : Settings) : Grammar D := { g with settings := settings }

theorem add_under (g : Grammar D) (settings : Settings) (d : Draft D)
    (accepts : Option (OccurrenceCheck D)) :
    ((g.under settings).add d accepts).grammar = ((g.add d accepts).grammar).under settings := by
  have same : (g.under settings).nextRule = g.nextRule := rfl
  unfold add
  rw [same]
  cases d.compile g.nextRule accepts with
  | error e => rfl
  | ok rule => rfl

/-- The rules registered do not depend on the settings. -/
theorem registerAll_under (settings settings' : Settings) (registrations : List (Registration D)) :
    registerAll settings registrations = (registerAll settings' registrations).under settings := by
  induction registrations using List.reverseRecOn with
  | nil => rfl
  | append_singleton xs x ih => rw [registerAll_concat, registerAll_concat, ih, add_under]

/-! ## The order of registration -/

section Order

variable {settings : Settings} {registrations registrations' : List (Registration D)}

theorem mem_conflicts_registerAll_iff {i j : Nat} :
    ⟨⟨i⟩, ⟨j⟩⟩ ∈ (registerAll settings registrations).conflicts ↔ ∃ victim cutter,
      (registrations.filterMap Registration.rule?)[i]? = some victim ∧
      (registrations.filterMap Registration.rule?)[j]? = some cutter ∧
      victim.conflicts cutter = true := by
  rw [(grown_registerAll settings registrations).mem_conflicts_iff]
  simp only [rule?, getElem?_registerAll, Option.map_eq_some_iff]
  constructor
  · rintro ⟨-, -, ⟨victim, first, rfl⟩, ⟨cutter, second, rfl⟩, conflict⟩
    rw [Rule.conflicts_numbered] at conflict
    exact ⟨victim, cutter, first, second, conflict⟩
  · rintro ⟨victim, cutter, first, second, conflict⟩
    refine ⟨_, _, ⟨victim, first, rfl⟩, ⟨cutter, second, rfl⟩, ?_⟩
    rw [Rule.conflicts_numbered]
    exact conflict

theorem armed_registerAll_iff : (registerAll settings registrations).armed = true ↔
    ∃ rule ∈ registrations.filterMap Registration.rule?, ∃ e ∈ rule.addedEdges, e.IsSpliced := by
  rw [(grown_registerAll settings registrations).sound.armed_iff]
  simp only [← Array.mem_toList_iff, rules_registerAll, List.mem_mapIdx]
  constructor
  · rintro ⟨-, ⟨i, inside, rfl⟩, spliced⟩
    exact ⟨_, List.getElem_mem inside, spliced⟩
  · rintro ⟨rule, member, spliced⟩
    obtain ⟨i, inside, rfl⟩ := List.getElem_of_mem member
    exact ⟨_, ⟨i, inside, rfl⟩, spliced⟩

/-- Grammars of the same rules differ in the numbers of these and in nothing else. -/
theorem exists_renumbering (same : (registrations.filterMap Registration.rule?).Perm
      (registrations'.filterMap Registration.rule?)) :
    ∃ σ : Equiv.Perm Nat,
      (∀ i : Nat, (registerAll settings registrations').rules[σ i]? =
        ((registerAll settings registrations).rules[i]?).map (·.numbered ⟨σ i⟩)) ∧
      (∀ i j : Nat, ⟨⟨σ i⟩, ⟨σ j⟩⟩ ∈ (registerAll settings registrations').conflicts ↔
        ⟨⟨i⟩, ⟨j⟩⟩ ∈ (registerAll settings registrations).conflicts) ∧
      (registerAll settings registrations').armed = (registerAll settings registrations).armed := by
  obtain ⟨σ, numbers⟩ := exists_numbers same
  refine ⟨σ, fun i => ?_, fun i j => ?_, ?_⟩
  · simp only [getElem?_registerAll, numbers i, Option.map_map, Function.comp_def,
      Rule.numbered_numbered]
  · rw [mem_conflicts_registerAll_iff, mem_conflicts_registerAll_iff, numbers i, numbers j]
  · rw [Bool.eq_iff_iff, armed_registerAll_iff, armed_registerAll_iff]
    exact exists_congr fun rule => and_congr_left fun _ => (numbers.mem_iff rule).symm

end Order

/-! ## Attempts -/

/-- What a caller does to register a rule: the declaration is carried to its end or abandoned. -/
inductive Attempt (D : Domain) where
  | ended (registration : Registration D)
  | abandoned (declarations : List (Declaration D))

def Attempt.registration? : Attempt D → Option (Registration D)
  | .ended registration => some registration
  | .abandoned _ => none

/-- The rule that comes of the attempt, if any, under the first number. -/
def Attempt.rule? (x : Attempt D) : Option (Rule D) := x.registration?.bind Registration.rule?

/-- Nothing is registered before the end. -/
def attempt (g : Grammar D) : Attempt D → Grammar D
  | .ended x => (g.add (Draft.empty.declareAll x.declarations) x.accepts).grammar
  | .abandoned _ => g

/-- The grammar that the attempts leave, made one after the other. -/
def ofAttempts (settings : Settings) (attempts : List (Attempt D)) : Grammar D :=
  attempts.foldl attempt (.empty settings)

theorem ofAttempts_eq (settings : Settings) (attempts : List (Attempt D)) :
    ofAttempts settings attempts =
      registerAll settings (attempts.filterMap Attempt.registration?) := by
  unfold ofAttempts registerAll
  rw [List.foldl_filterMap]
  congr 1
  funext g x
  cases x <;> rfl

/-- What a history of attempts leaves: the rules that came of it, each at its number; the table of
their conflicts, without repetitions; the flag if one of them adds an edge spliced at both ends. The
same rules in any order leave the same table and flag up to the numbers. -/
theorem ofAttempts_complete (settings : Settings) (attempts : List (Attempt D)) :
    let g := ofAttempts settings attempts
    let rules := attempts.filterMap Attempt.rule?
    g.rules.toList = rules.mapIdx (fun i rule => rule.numbered ⟨i⟩) ∧
    (∀ i j : Nat, ⟨⟨i⟩, ⟨j⟩⟩ ∈ g.conflicts ↔ ∃ victim cutter, g.rules[i]? = some victim ∧
      g.rules[j]? = some cutter ∧ victim.conflicts cutter = true) ∧
    g.conflicts.Pairwise (· < ·) ∧
    (g.armed = true ↔ ∃ rule ∈ g.rules, ∃ e ∈ rule.addedEdges, e.IsSpliced) ∧
    g.settings = settings ∧
    ∀ attempts' : List (Attempt D), rules.Perm (attempts'.filterMap Attempt.rule?) →
      let g' := ofAttempts settings attempts'
      ∃ σ : Equiv.Perm Nat,
        (∀ i : Nat, g'.rules[σ i]? = (g.rules[i]?).map (·.numbered ⟨σ i⟩)) ∧
        (∀ i j : Nat, ⟨⟨σ i⟩, ⟨σ j⟩⟩ ∈ g'.conflicts ↔ ⟨⟨i⟩, ⟨j⟩⟩ ∈ g.conflicts) ∧
        g'.armed = g.armed := by
  have rules (xs : List (Attempt D)) : xs.filterMap Attempt.rule? =
      (xs.filterMap Attempt.registration?).filterMap Registration.rule? := by
    rw [List.filterMap_filterMap]
    rfl
  simp only [ofAttempts_eq, rules]
  have grown := grown_registerAll settings (attempts.filterMap Attempt.registration?)
  refine ⟨rules_registerAll settings _, fun _ _ => grown.mem_conflicts_iff, grown.ascending,
    grown.sound.armed_iff, ?_, fun _ => exists_renumbering⟩
  rw [registerAll_under settings settings]
  rfl

open Samples in
/-- A leaf is grown, a vertex cut and two edges crossed, with an empty rule and an abandoned one
between them, in one order and in the other. -/
theorem ofAttempts_complete_growLeaf :
    let attempts : List (Attempt .plain) := [.ended ⟨growLeaf, none⟩, .ended ⟨[], none⟩,
      .abandoned splitEdge, .ended ⟨[.cutVertex 0], none⟩, .ended ⟨crossEdges, none⟩]
    (ofAttempts .default attempts).rules.size = 3 ∧
    ⟨⟨0⟩, ⟨1⟩⟩ ∈ (ofAttempts .default attempts).conflicts ∧
    ∃ σ : Equiv.Perm Nat,
      ⟨⟨σ 0⟩, ⟨σ 1⟩⟩ ∈ (ofAttempts .default attempts.reverse).conflicts ∧
      (ofAttempts .default attempts.reverse).armed = true := by
  intro attempts
  have entered : ⟨⟨0⟩, ⟨1⟩⟩ ∈ (ofAttempts .default attempts).conflicts := by decide +kernel
  have armed : (ofAttempts .default attempts).armed = true := by decide +kernel
  obtain ⟨-, -, -, -, -, reordered⟩ := ofAttempts_complete .default attempts
  obtain ⟨σ, -, table, flag⟩ :=
    reordered attempts.reverse ((List.reverse_perm attempts).symm.filterMap _)
  exact ⟨by decide +kernel, entered, σ, (table 0 1).mpr entered, flag.trans armed⟩

end Grammar

end GraphSplice
