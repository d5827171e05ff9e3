import GraphSplice.Proofs.Ascending
import GraphSplice.Proofs.Rule.Compilation

/-!
The table of conflicts that a grammar keeps. It has an entry for exactly those pairs of its rules
that the analysis finds in conflict.
-/

namespace GraphSplice

variable {D : Domain}

theorem Conflict.lt_iff {c d : Conflict} :
    c < d ↔ c.victim < d.victim ∨ (c.victim = d.victim ∧ c.cutter < d.cutter) := Iff.rfl

instance : IsStrictTotalOrder Conflict (· < ·) where
  trichotomous c d below above := by
    obtain ⟨⟨victim⟩, ⟨cutter⟩⟩ := c
    obtain ⟨⟨victim'⟩, ⟨cutter'⟩⟩ := d
    simp only [Conflict.lt_iff, Handle.lt_iff, Handle.mk.injEq, Conflict.mk.injEq] at *
    omega
  irrefl c := by simp [Conflict.lt_iff, Handle.lt_iff]
  trans c d e below below' := by
    obtain ⟨⟨victim⟩, ⟨cutter⟩⟩ := c
    obtain ⟨⟨victim'⟩, ⟨cutter'⟩⟩ := d
    obtain ⟨⟨victim''⟩, ⟨cutter''⟩⟩ := e
    simp only [Conflict.lt_iff, Handle.lt_iff, Handle.mk.injEq] at *
    omega

namespace Grammar

namespace Findings

variable {c : Conflict} {found : Findings}

theorem mem_compareAs {victim cutter : Rule D} :
    c ∈ (compareAs victim cutter found).conflicts ↔
      c ∈ found.conflicts ∨ (victim.conflicts cutter = true ∧ c = ⟨victim.id, cutter.id⟩) := by
  unfold compareAs note
  split
  · next conflict => simp [Ascending.mem_insert, conflict, or_comm]
  · next compatible => simp [compatible]

theorem mem_compareBoth {rule earlier : Rule D} :
    c ∈ (compareBoth rule found earlier).conflicts ↔ c ∈ found.conflicts ∨
      (earlier.conflicts rule = true ∧ c = ⟨earlier.id, rule.id⟩) ∨
      (rule.conflicts earlier = true ∧ c = ⟨rule.id, earlier.id⟩) := by
  rw [compareBoth, mem_compareAs, mem_compareAs, or_assoc]

theorem mem_compareSelf {rule : Rule D} : c ∈ (compareSelf rule found).conflicts ↔
    c ∈ found.conflicts ∨ (rule.conflicts rule = true ∧ c = ⟨rule.id, rule.id⟩) := by
  unfold compareSelf note
  split
  · next conflict => simp [Ascending.mem_insert, conflict, or_comm]
  · next compatible => simp [compatible]

theorem mem_foldl_compareBoth {rule : Rule D} (rules : List (Rule D)) :
    ∀ found : Findings, c ∈ (rules.foldl (compareBoth rule) found).conflicts ↔
      c ∈ found.conflicts ∨ ∃ earlier ∈ rules,
        (earlier.conflicts rule = true ∧ c = ⟨earlier.id, rule.id⟩) ∨
        (rule.conflicts earlier = true ∧ c = ⟨rule.id, earlier.id⟩) := by
  induction rules with
  | nil => simp
  | cons earlier rest ih =>
    intro found
    rw [List.foldl_cons, ih, mem_compareBoth]
    simp only [List.mem_cons, exists_eq_or_imp, or_assoc]

theorem compareAs_ascending {victim cutter : Rule D} (h : found.conflicts.Pairwise (· < ·)) :
    (compareAs victim cutter found).conflicts.Pairwise (· < ·) := by
  unfold compareAs note
  split
  · exact Ascending.insert_pairwise h
  · exact h

theorem compareSelf_ascending {rule : Rule D} (h : found.conflicts.Pairwise (· < ·)) :
    (compareSelf rule found).conflicts.Pairwise (· < ·) := by
  unfold compareSelf note
  split
  · exact Ascending.insert_pairwise h
  · exact h

theorem foldl_compareBoth_ascending {rule : Rule D} (rules : List (Rule D))
    (h : found.conflicts.Pairwise (· < ·)) :
    (rules.foldl (compareBoth rule) found).conflicts.Pairwise (· < ·) := by
  induction rules generalizing found with
  | nil => exact h
  | cons earlier rest ih => exact ih (compareAs_ascending (compareAs_ascending h))

end Findings

variable {g : Grammar D}

/-- The table tells of the registered rules what the analysis finds. -/
def Tabulated (g : Grammar D) : Prop := ∀ c, c ∈ g.conflicts ↔ ∃ victim ∈ g.rules.toList,
  ∃ cutter ∈ g.rules.toList, victim.conflicts cutter = true ∧ c = ⟨victim.id, cutter.id⟩

theorem Tabulated.register (tabulated : g.Tabulated) (rule : Rule D) :
    (g.register rule).1.Tabulated := by
  intro c
  unfold Grammar.register
  simp only [Findings.mem_compareSelf, Findings.mem_foldl_compareBoth, tabulated c,
    Array.toList_push, List.mem_append, List.mem_singleton, or_and_right, exists_or,
    exists_eq_left, and_or_left, or_assoc]
  exact or_congr_right or_left_comm

theorem Grown.tabulated (grown : g.Grown) : g.Tabulated := by
  induction grown with
  | empty settings => exact fun c => by simp [Grammar.empty]
  | add declarations accepts _ ih =>
    unfold Grammar.add
    split
    · exact ih
    · exact ih.register _

/-- No conflict is entered twice. -/
theorem Grown.ascending (grown : g.Grown) : g.conflicts.Pairwise (· < ·) := by
  induction grown with
  | empty settings => exact .nil
  | add declarations accepts _ ih =>
    unfold Grammar.add
    split
    · exact ih
    · exact Findings.compareSelf_ascending (Findings.foldl_compareBoth_ascending _ ih)

theorem Grown.mem_conflicts_iff (grown : g.Grown) {a b : RuleId} :
    ⟨a, b⟩ ∈ g.conflicts ↔ ∃ victim cutter, g.rule? a = some victim ∧ g.rule? b = some cutter ∧
      victim.conflicts cutter = true := by
  have named : ∀ rule ∈ g.rules.toList, g.rule? rule.id = some rule := by
    intro rule member
    obtain ⟨i, found⟩ := Array.mem_iff_getElem?.mp (Array.mem_toList_iff.mp member)
    rw [(grown.sound.rules i rule found).2]
    exact found
  rw [grown.tabulated]
  constructor
  · rintro ⟨victim, member, cutter, member', conflict, same⟩
    obtain ⟨rfl, rfl⟩ := Conflict.mk.inj same
    exact ⟨victim, cutter, named victim member, named cutter member', conflict⟩
  · rintro ⟨victim, cutter, first, second, conflict⟩
    refine ⟨victim, Array.mem_toList_iff.mpr (Array.mem_of_getElem? first), cutter,
      Array.mem_toList_iff.mpr (Array.mem_of_getElem? second), conflict, ?_⟩
    rw [(grown.sound.rules a.slot victim first).2, (grown.sound.rules b.slot cutter second).2]

/-- The entry for two registered rules tells whether they are in conflict. -/
theorem Grown.inConflict_iff (grown : g.Grown) {a b : RuleId} {victim cutter : Rule D}
    (first : g.rule? a = some victim) (second : g.rule? b = some cutter) :
    g.inConflict a b = true ↔ victim.conflicts cutter = true := by
  rw [inConflict, List.contains_iff_mem, grown.mem_conflicts_iff]
  simp only [first, second, Option.some.injEq, exists_and_left, exists_eq_left']

end Grammar

end GraphSplice
