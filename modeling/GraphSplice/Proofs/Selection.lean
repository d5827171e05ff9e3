import GraphSplice.Proofs.Except
import GraphSplice.Proofs.Footprint
import GraphSplice.Proofs.Samples

/-!
What a selection keeps: the candidates that are independent of all those kept before them. Nothing
else could be kept without a clash, and selecting again from what was kept drops nothing.
-/

namespace GraphSplice

variable {D : Domain} {host : Host D}

namespace Grammar

variable {g : Grammar D}

theorem footprint_eq_ok_iff {app : Application} {f : Footprint} :
    g.footprint host app = .ok f ↔
      ∃ r, app.resolve g.rules host = .ok r ∧ f = Footprint.of host r := by
  unfold Grammar.footprint
  cases app.resolve g.rules host with
  | error e => exact ⟨nofun, nofun⟩
  | ok r =>
    refine ⟨fun h => ⟨r, rfl, (Except.ok.inj h).symm⟩, ?_⟩
    rintro ⟨r', resolved, rfl⟩
    exact congrArg (fun r => Except.ok (Footprint.of host r)) (Except.ok.inj resolved)

theorem ordered_of_footprint {app : Application} {f : Footprint}
    (h : g.footprint host app = .ok f) : f.Ordered := by
  obtain ⟨r, -, rfl⟩ := footprint_eq_ok_iff.mp h
  exact Footprint.ordered_of host r

/-- The candidates picked by a greedy pass, each with its place and its footprint. -/
structure Sifts (g : Grammar D) (host : Host D) (candidates : List Application)
    (picked : List (Nat × Application × Footprint)) : Prop where
  sublist : (picked.map (·.2.1)).Sublist candidates
  ascending : (picked.map (·.1)).Pairwise (· < ·)
  there : ∀ x ∈ picked, candidates[x.1]? = some x.2.1
  footprint : ∀ x ∈ picked, g.footprint host x.2.1 = .ok x.2.2
  independent : picked.Pairwise fun x y =>
    x.2.2.independent y.2.2 = true ∧ y.2.2.independent x.2.2 = true
  /-- A candidate is passed over only because it clashes with an earlier one that is kept. -/
  dropped : ∀ j app f, candidates[j]? = some app → g.footprint host app = .ok f →
    j ∉ picked.map (·.1) → ∃ x ∈ picked, x.1 < j ∧ f.independent x.2.2 = false

theorem sifts_nil : Sifts g host [] [] := ⟨.slnil, .nil, nofun, nofun, .nil, nofun⟩

namespace Sifts

variable {candidates : List Application} {picked : List (Nat × Application × Footprint)}
  {app : Application} {f : Footprint}

theorem place_lt (h : Sifts g host candidates picked) {x : Nat × Application × Footprint}
    (hx : x ∈ picked) : x.1 < candidates.length :=
  (List.getElem?_eq_some_iff.mp (h.there x hx)).1

theorem there_append (h : Sifts g host candidates picked) (more : List Application) :
    ∀ x ∈ picked, (candidates ++ more)[x.1]? = some x.2.1 := by
  intro x hx
  rw [List.getElem?_append_left (h.place_lt hx)]
  exact h.there x hx

/-- The next candidate is kept when it is independent of all that are kept already. -/
theorem push (h : Sifts g host candidates picked) (found : g.footprint host app = .ok f)
    (apart : ∀ x ∈ picked, f.independent x.2.2 = true) :
    Sifts g host (candidates ++ [app]) (picked ++ [(candidates.length, app, f)]) where
  sublist := by
    rw [List.map_append]
    exact h.sublist.append (.refl _)
  ascending := by
    rw [List.map_append, List.pairwise_append]
    refine ⟨h.ascending, List.pairwise_singleton _ _, ?_⟩
    intro i hi j hj
    obtain ⟨x, hx, rfl⟩ := List.mem_map.mp hi
    rw [List.mem_singleton.mp hj]
    exact h.place_lt hx
  there := by
    simp only [List.forall_mem_append, List.forall_mem_singleton, List.getElem?_concat_length]
    exact ⟨h.there_append _, trivial⟩
  footprint := by
    simp only [List.forall_mem_append, List.forall_mem_singleton]
    exact ⟨h.footprint, found⟩
  independent := by
    rw [List.pairwise_append]
    refine ⟨h.independent, List.pairwise_singleton _ _, ?_⟩
    intro x hx y hy
    rw [List.mem_singleton.mp hy]
    exact ⟨Footprint.independent_symm (ordered_of_footprint found)
      (ordered_of_footprint (h.footprint x hx)) (apart x hx), apart x hx⟩
  dropped := by
    intro j app' f' there found' out
    simp only [List.map_append, List.map_cons, List.map_nil, List.mem_append,
      List.mem_singleton, not_or] at out
    have before : j < candidates.length := by
      have inside := (List.getElem?_eq_some_iff.mp there).1
      simp only [List.length_append, List.length_singleton] at inside
      omega
    rw [List.getElem?_append_left before] at there
    obtain ⟨x, hx, clash⟩ := h.dropped j app' f' there found' out.1
    exact ⟨x, List.mem_append_left _ hx, clash⟩

/-- The next candidate is dropped when it clashes with one that is kept already. -/
theorem skip (h : Sifts g host candidates picked) (found : g.footprint host app = .ok f)
    (clash : ∃ x ∈ picked, f.independent x.2.2 = false) :
    Sifts g host (candidates ++ [app]) picked where
  sublist := h.sublist.trans (List.sublist_append_left _ _)
  ascending := h.ascending
  there := h.there_append _
  footprint := h.footprint
  independent := h.independent
  dropped := by
    intro j app' f' there found' out
    rcases Nat.lt_or_ge j candidates.length with before | last
    · rw [List.getElem?_append_left before] at there
      exact h.dropped j app' f' there found' out
    · obtain ⟨x, hx, clash⟩ := clash
      rw [List.getElem?_append_right last] at there
      obtain rfl := List.mem_singleton.mp (List.mem_of_getElem? there)
      obtain rfl : f = f' := Except.ok.inj (found.symm.trans found')
      exact ⟨x, hx, Nat.lt_of_lt_of_le (h.place_lt hx) last, clash⟩

/-- One step of the pass. -/
theorem keep (h : Sifts g host candidates picked) (found : g.footprint host app = .ok f) :
    ∃ picked', g.keep host (picked.map (·.2)) app = .ok (picked'.map (·.2)) ∧
      Sifts g host (candidates ++ [app]) picked' := by
  unfold Grammar.keep
  rw [found]
  cases clear : (picked.map (·.2)).all fun k => f.independent k.2 with
  | true =>
    refine ⟨picked ++ [(candidates.length, app, f)], ?_, h.push found ?_⟩
    · rw [List.map_append]
      exact congrArg Except.ok (if_pos clear)
    · simpa using clear
  | false =>
    refine ⟨picked, congrArg Except.ok (if_neg (by simp [clear])), h.skip found ?_⟩
    simpa using clear

end Sifts

/-- Candidates that all resolve are sifted. -/
theorem exists_sifts {candidates : List Application}
    (resolve : ∀ app ∈ candidates, (app.resolve g.rules host).isOk = true) :
    ∃ picked, candidates.foldlM (g.keep host) [] = .ok (picked.map (·.2)) ∧
      Sifts g host candidates picked := by
  induction candidates using List.reverseRecOn with
  | nil => exact ⟨[], rfl, sifts_nil⟩
  | append_singleton before app ih =>
    obtain ⟨picked, ran, sifts⟩ := ih fun a ha => resolve a (List.mem_append_left _ ha)
    obtain ⟨r, resolved⟩ := exists_of_isOk (resolve app (by simp))
    obtain ⟨picked', step, sifts'⟩ := sifts.keep (footprint_eq_ok_iff.mpr ⟨r, resolved, rfl⟩)
    refine ⟨picked', ?_, sifts'⟩
    rw [List.foldlM_append, ran]
    show List.foldlM (g.keep host) (picked.map (·.2)) [app] = _
    rw [List.foldlM_cons, step]
    rfl

theorem selectIndependent_of_run {candidates : List Application}
    {picked : List (Nat × Application × Footprint)}
    (ran : candidates.foldlM (g.keep host) [] = .ok (picked.map (·.2))) :
    g.selectIndependent host candidates = .ok (picked.map (·.2.1)) := by
  unfold selectIndependent
  rw [ran]
  exact congrArg Except.ok (List.map_map ..)

/-- Candidates each independent of all before are all kept. -/
theorem foldlM_keep_of_independent {pairs : List (Application × Footprint)}
    (footprint : ∀ x ∈ pairs, g.footprint host x.1 = .ok x.2)
    (independent : pairs.Pairwise fun x y => y.2.independent x.2 = true) :
    (pairs.map (·.1)).foldlM (g.keep host) [] = .ok pairs := by
  induction pairs using List.reverseRecOn with
  | nil => rfl
  | append_singleton before last ih =>
    obtain ⟨apart, -, clear⟩ := List.pairwise_append.mp independent
    rw [List.map_append, List.foldlM_append,
      ih (fun x hx => footprint x (List.mem_append_left _ hx)) apart]
    show List.foldlM (g.keep host) before [last.1] = _
    rw [List.foldlM_cons]
    unfold Grammar.keep
    rw [footprint last (by simp)]
    have all : (before.all fun k => last.2.independent k.2) = true :=
      List.all_eq_true.mpr fun x hx => clear x hx last (List.mem_singleton_self _)
    exact congrArg (· >>= pure) (congrArg Except.ok (if_pos all))

theorem Sifts.again {candidates : List Application}
    {picked : List (Nat × Application × Footprint)} (h : Sifts g host candidates picked) :
    g.selectIndependent host (picked.map (·.2.1)) = .ok (picked.map (·.2.1)) := by
  apply selectIndependent_of_run
  have footprint : ∀ x ∈ picked.map (·.2), g.footprint host x.1 = .ok x.2 :=
    List.forall_mem_map.mpr h.footprint
  have run := foldlM_keep_of_independent footprint
    (List.pairwise_map.mpr (h.independent.imp fun both => both.2))
  rwa [List.map_map] at run

/-- Of valid candidates a selection is made, and it resolves to independent applications. -/
theorem exists_selection {candidates : List Application}
    (admitted : ∀ app ∈ candidates, (app.resolve g.rules host).isOk = true) :
    ∃ kept batch, g.selectIndependent host candidates = .ok kept ∧
      (∀ app ∈ kept, app ∈ candidates) ∧
      List.Forall₂ (fun (app : Application) r => app.resolve g.rules host = .ok r) kept batch ∧
      batch.Pairwise fun r s => (Footprint.of host s).independent (Footprint.of host r) = true := by
  obtain ⟨picked, ran, sifts⟩ := exists_sifts admitted
  obtain ⟨batch, related⟩ := exists_forall₂ fun x hx =>
    footprint_eq_ok_iff.mp (sifts.footprint x hx)
  refine ⟨picked.map (·.2.1), batch, selectIndependent_of_run ran,
    fun app happ => sifts.sublist.subset happ, ?_, ?_⟩
  · rw [List.forall₂_map_left_iff]
    exact related.imp fun x r h => h.1
  · apply pairwise_of_forall₂ related sifts.independent
    intro x y r s hr hs apart
    rw [← hr.2, ← hs.2]
    exact apart.2

/-- Footprints are ascending lists, and on these the test for independence says that neither one
writes what the other one writes or reads. Of candidates that all resolve, the selection keeps
those that the greedy pass picks: independent of one another in both directions, while every other
one clashes with an earlier one that is kept. A second selection keeps them all. -/
theorem selectIndependent_maximal (g : Grammar D) (host : Host D) :
    (∀ app f, g.footprint host app = .ok f → f.Ordered) ∧
    (∀ f k : Footprint, f.Ordered → k.Ordered →
      (f.independent k = true ↔ f.Avoids k ∧ k.Avoids f)) ∧
    ∀ candidates, (∀ app ∈ candidates, (app.resolve g.rules host).isOk = true) →
      ∃ picked, Sifts g host candidates picked ∧
        g.selectIndependent host candidates = .ok (picked.map (·.2.1)) ∧
        g.selectIndependent host (picked.map (·.2.1)) = .ok (picked.map (·.2.1)) := by
  refine ⟨fun app f => ordered_of_footprint, fun f k => Footprint.independent_iff, ?_⟩
  intro candidates resolve
  obtain ⟨picked, ran, sifts⟩ := exists_sifts resolve
  exact ⟨picked, sifts, selectIndependent_of_run ran, sifts.again⟩

open Samples in
/-- Bridging two spokes of a star takes the vertices between them: of three ways to bridge, the
second one clashes with the first. -/
theorem selectIndependent_maximal_star :
    let g := single bridgeSpokes
    let star := shaped 5 [(0, 1), (0, 2), (0, 3), (0, 4)]
    let first := applyAt [0, 1, 2] [0, 1]
    let last := applyAt [0, 3, 4] []
    ∃ picked, Sifts g star [first, applyAt [0, 2, 3] [1, 2], last] picked ∧
      picked.map (·.2.1) = [first, last] ∧
      g.selectIndependent star [first, last] = .ok [first, last] := by
  intro g star first last
  obtain ⟨-, -, select⟩ := selectIndependent_maximal g star
  obtain ⟨picked, sifts, selected, again⟩ :=
    select [first, applyAt [0, 2, 3] [1, 2], last] (by decide +kernel)
  obtain ⟨kept, selected', same⟩ : ∃ kept, g.selectIndependent star
      [first, applyAt [0, 2, 3] [1, 2], last] = .ok kept ∧ kept = [first, last] :=
    exists_of_check (by decide +kernel)
  have eq := (Except.ok.inj (selected.symm.trans selected')).trans same
  rw [eq] at again
  exact ⟨picked, sifts, eq, again⟩

end Grammar

end GraphSplice
