import GraphSplice.Proofs.Matching
import GraphSplice.Proofs.Registration
import GraphSplice.Proofs.Search.Curtailment

/-!
Searches for occurrences under a limit. Whatever the predicates answer and however they change the
state they are given, the limited search is the first part of the unlimited one: it asks the same
questions in the same order until it has found enough.
-/

namespace GraphSplice

open Search

variable {D : Domain} {host : Host D}

namespace Rule

/-- The search has found as many occurrences as it may, and they are the first ones of the other
search. -/
def Filled (k : Nat) (h h' : Harvest D) : Prop :=
  h.found.size = k ∧ h.found.toList <+: h'.found.toList

/-- The limit decides only whether the search stops at an occurrence that is taken. -/
theorem takeEmbedding_passes_or_takes (r : Rule D) (context : MatchContext D) (m : Embedding)
    (h : Harvest D) :
    ∃ h', (h'.found = h.found ∧ ∀ limit, r.takeEmbedding context limit m h = (.more, h')) ∨
      (h'.found = h.found.push m.occurrence ∧ ∀ limit, r.takeEmbedding context limit m h =
        (if reached limit h'.found.size then .done else .more, h')) := by
  unfold takeEmbedding
  dsimp only
  split
  · next s _ => exact ⟨{ h with state := s }, .inl ⟨rfl, fun _ => rfl⟩⟩
  · next s _ =>
    split
    · exact ⟨{ h with state := s }, .inl ⟨rfl, fun _ => rfl⟩⟩
    · let key := Symmetry.canonicalKey r.symmetries m.vertices
      let keys := if r.isSymmetric then key :: h.keys else h.keys
      exact ⟨⟨s, keys, h.found.push m.occurrence⟩, .inr ⟨rfl, fun _ => rfl⟩⟩

theorem takeEmbedding_curtailed (r : Rule D) (context : MatchContext D) (k : Nat) (m : Embedding)
    (h : Harvest D) (within : h.found.size < k) :
    Curtailed (fun h => h.found.size < k) (Filled k) (r.takeEmbedding context (some k) m h)
      (r.takeEmbedding context none m h) := by
  obtain ⟨h', ⟨same, passes⟩ | ⟨grown, takes⟩⟩ := r.takeEmbedding_passes_or_takes context m h
  · rw [passes, passes]
    exact .together (same ▸ within)
  · have size : h'.found.size = h.found.size + 1 := by rw [grown, Array.size_push]
    rw [takes, takes]
    by_cases full : k ≤ h'.found.size
    · have isReached : reached (some k) h'.found.size = true := decide_eq_true full
      rw [if_pos isReached]
      exact .stopped ⟨by omega, List.prefix_refl _⟩
    · have notReached : reached (some k) h'.found.size = false := decide_eq_false full
      rw [if_neg (by rw [notReached]; exact Bool.false_ne_true)]
      exact .together (Nat.lt_of_not_le full)

/-- The search without a limit goes on and keeps what it has found. -/
theorem takeEmbedding_goesOn (r : Rule D) (context : MatchContext D) (k : Nat) (m : Embedding)
    (h : Harvest D) : Ensures (Filled k h) (r.takeEmbedding context none m) (· = .more) := by
  intro t ht
  obtain ⟨t', ⟨same, passes⟩ | ⟨grown, takes⟩⟩ := r.takeEmbedding_passes_or_takes context m t
  · rw [passes]
    exact ⟨rfl, ht.1, same ▸ ht.2⟩
  · rw [takes]
    refine ⟨rfl, ht.1, ?_⟩
    rw [grown, Array.toList_push]
    exact ht.2.trans (List.prefix_append _ _)

/-- Either there are fewer occurrences than the limit and it plays no part, or as many as the limit
are found and these come first without it. -/
theorem occurrences_within_or_cut (r : Rule D) (host : Host D) (k : Nat) (s : D.MatchState) :
    ((r.occurrences host none s).1.length < k ∧
      r.occurrences host (some k) s = r.occurrences host none s) ∨
    ((r.occurrences host (some k) s).1.length = k ∧
      (r.occurrences host (some k) s).1 <+: (r.occurrences host none s).1) := by
  rcases Nat.eq_zero_or_pos k with rfl | positive
  · exact .inr ⟨rfl, List.nil_prefix⟩
  · have curtailed := run_curtailed
      (r.keeps_hostGuide_found ⟨host, r.id⟩ none fun found => found.size < k)
      (fun h => r.keeps_hostGuide_found ⟨host, r.id⟩ none fun found =>
        h.found.size = k ∧ h.found.toList <+: found.toList)
      (r.takeEmbedding_curtailed ⟨host, r.id⟩ k) (r.takeEmbedding_goesOn ⟨host, r.id⟩ k)
      r.pattern host.asTarget ⟨s, [], #[]⟩ positive
    have limited : some k ≠ some 0 := fun same => positive.ne' (Option.some.inj same)
    unfold occurrences
    rw [if_neg limited, if_neg nofun]
    change Curtailed _ _
      (run (r.hostGuide ⟨host, r.id⟩ (some k)) r.pattern host.asTarget ⟨s, [], #[]⟩)
      (run (r.hostGuide ⟨host, r.id⟩ none) r.pattern host.asTarget ⟨s, [], #[]⟩) at curtailed
    dsimp only
    generalize run (r.hostGuide ⟨host, r.id⟩ (some k)) _ _ _ = a at curtailed ⊢
    generalize run (r.hostGuide ⟨host, r.id⟩ none) _ _ _ = b at curtailed ⊢
    cases curtailed with
    | together within => exact .inl ⟨within, rfl⟩
    | stopped filled => exact .inr filled

end Rule

namespace Grammar

/-- A search under a limit finds the first occurrences of the search without one. Where that finds
fewer, the limit changes nothing, neither the state that the predicates leave nor the events. -/
theorem find_limited (g : Grammar D) (id : RuleId) (host : Host D) (s : D.MatchState) (k : Nat) :
    let limited := (g.under { g.settings with matchLimit := some k }).find id host s
    let unlimited := (g.under { g.settings with matchLimit := none }).find id host s
    limited.result = unlimited.result.map (·.take k) ∧
    ∀ all, unlimited.result = .ok all → all.length < k → limited = unlimited := by
  have rules : ∀ settings : Settings, (g.under settings).rule? id = g.rule? id := fun _ => rfl
  unfold find
  simp only [rules]
  cases g.rule? id with
  | none => exact ⟨rfl, fun _ _ _ => rfl⟩
  | some rule =>
    dsimp only [under, Except.map]
    obtain ⟨few, same⟩ | ⟨full, first⟩ := rule.occurrences_within_or_cut host k s
    · rw [same, List.take_of_length_le few.le]
      exact ⟨rfl, fun _ _ _ => rfl⟩
    · have taken := List.prefix_iff_eq_take.mp first
      rw [full] at taken
      refine ⟨congrArg Except.ok taken, ?_⟩
      intro all found short
      cases found
      exact absurd first.length_le (by omega)

end Grammar

end GraphSplice
