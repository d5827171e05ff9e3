import GraphSplice.Grammar
import GraphSplice.Proofs.Rule.WellFormed

/-!
Compiled rules are well formed, and so are all rules of a grammar that was grown from drafts.
-/

namespace GraphSplice

variable {D : Domain}

namespace Draft

variable {d : Draft D} {id : RuleId} {accepts : Option (OccurrenceCheck D)} {rule : Rule D}

/-- The declared matched edges, in order. -/
def matchedDecls (d : Draft D) : List (MatchedEdge D) :=
  d.edges.toList.filterMap fun
    | .matched edge => some edge
    | .added .. => none

theorem mem_matchedDecls {edge : MatchedEdge D} (h : edge ∈ d.matchedDecls) :
    ∃ j : Nat, d.edges[j]? = some (.matched edge) := by
  obtain ⟨decl, mem, same⟩ := List.mem_filterMap.mp h
  cases decl with
  | matched edge' =>
    cases same
    obtain ⟨j, found⟩ := List.getElem?_of_mem mem
    exact ⟨j, by simpa using found⟩
  | added => cases same

/-- A matched edge of the rule has the ends of its declaration. -/
structure FromMatched (d : Draft D) (decl edge : MatchedEdge D) : Prop where
  fate : edge.fate = decl.fate
  tag : edge.tag = decl.tag
  ends : ∀ side, d.endpoint? (decl.ends.get side) = some (.matched (edge.ends.get side))

theorem forall₂_matchedEdges {edges : List (MatchedEdge D)} (h : d.matchedEdges = .ok edges) :
    List.Forall₂ d.FromMatched d.matchedDecls edges := by
  refine (forall₂_of_mapM h).imp ?_
  intro decl edge compiled
  obtain ⟨first, hf, compiled⟩ := bind_ok compiled
  obtain ⟨second, hs, compiled⟩ := bind_ok compiled
  cases compiled
  refine ⟨rfl, rfl, ?_⟩
  intro side
  cases side with
  | first => exact matchedSlot_eq_ok hf
  | second => exact matchedSlot_eq_ok hs

/-- The declared added edges, in order. -/
def addedDecls (d : Draft D) :
    List (Tag × Ends Nat × Ends (Option Nat) × Option (EdgeCreation D)) :=
  d.edges.toList.filterMap fun
    | .matched _ => none
    | .added tag ends sockets creation => some (tag, ends, sockets, creation)

theorem mem_addedDecls {tag : Tag} {ends : Ends Nat} {sockets : Ends (Option Nat)}
    {creation : Option (EdgeCreation D)} (h : (tag, ends, sockets, creation) ∈ d.addedDecls) :
    ∃ j : Nat, d.edges[j]? = some (.added tag ends sockets creation) := by
  obtain ⟨decl, mem, same⟩ := List.mem_filterMap.mp h
  cases decl with
  | matched => cases same
  | added =>
    cases same
    obtain ⟨j, found⟩ := List.getElem?_of_mem mem
    exact ⟨j, by simpa using found⟩

/-- An added edge of the rule has the ends and sockets of its declaration. -/
structure FromAdded (d : Draft D) (ends : Ends Nat) (sockets : Ends (Option Nat))
    (edge : AddedEdge D) : Prop where
  ends : ∀ side, d.endpoint? (ends.get side) = some (edge.ends.get side)
  sockets : ∀ side, edge.sockets.get side = (sockets.get side).bind d.edgeSlot?

theorem forall₂_addedEdges {edges : List (AddedEdge D)} (h : d.addedEdges = .ok edges) :
    List.Forall₂ (fun decl edge => edge.tag = decl.1 ∧ d.FromAdded decl.2.1 decl.2.2.1 edge)
      d.addedDecls edges := by
  refine (forall₂_of_mapM h).imp ?_
  rintro ⟨tag, ends, sockets, creation⟩ edge compiled
  obtain ⟨first, hf, compiled⟩ := bind_ok compiled
  obtain ⟨second, hs, compiled⟩ := bind_ok compiled
  cases compiled
  refine ⟨rfl, ?_⟩
  constructor <;> intro side <;> cases side
  · exact endpoint_eq_ok hf
  · exact endpoint_eq_ok hs
  · rfl
  · rfl

theorem fromAdded_of_mem {edges : List (AddedEdge D)} (h : d.addedEdges = .ok edges)
    {edge : AddedEdge D} (mem : edge ∈ edges) :
    ∃ (j : Nat) (tag : Tag) (ends : Ends Nat) (sockets : Ends (Option Nat))
      (creation : Option (EdgeCreation D)),
      d.edges[j]? = some (.added tag ends sockets creation) ∧ d.FromAdded ends sockets edge := by
  obtain ⟨i, found⟩ := List.getElem?_of_mem mem
  obtain ⟨⟨tag, ends, sockets, creation⟩, there, -, slots⟩ :=
    (forall₂_getElem? (forall₂_addedEdges h) i).2 edge found
  obtain ⟨j, declared⟩ := mem_addedDecls (List.mem_of_getElem? there)
  exact ⟨j, tag, ends, sockets, creation, declared, slots⟩

theorem edgeSlot?_eq_some {c slot : Nat} (h : d.edgeSlot? c = some slot) :
    ∃ decl, d.edges[c]? = some (.matched decl) ∧ d.matchedDecls[slot]? = some decl := by
  unfold edgeSlot? at h
  split at h
  · next decl found =>
    cases h
    refine ⟨decl, found, getElem?_filterMap_countP _ _ ?_ _ (by simpa using found) rfl⟩
    intro x
    cases x with
    | matched edge => cases fate : edge.fate <;> simp [EdgeDecl.role, Fate.role, fate]
    | added => simp [EdgeDecl.role]
  · cases h

/-- Distinct declared ends compile to distinct ends. -/
theorem distinct_of_endpoints {ends : Ends Nat} {compiled : Ends Endpoint}
    (distinct : ends.first ≠ ends.second)
    (at' : ∀ side, d.endpoint? (ends.get side) = some (compiled.get side)) :
    compiled.first ≠ compiled.second := by
  intro same
  have second : d.endpoint? ends.second = some compiled.second := at' .second
  rw [← same] at second
  exact distinct (endpoint?_inj (at' .first) second)

theorem FromMatched.inside {decl edge : MatchedEdge D} (slots : d.FromMatched decl edge)
    (side : Side) : edge.ends.get side < d.matchedVertices.length := by
  rcases endpoint?_cases (slots.ends side) with ⟨vertex, -, i, same, there⟩ | ⟨_, -, _, same, -⟩
  · cases same
    exact (List.getElem?_eq_some_iff.mp there).1
  · cases same

theorem FromMatched.distinct {decl edge : MatchedEdge D} (slots : d.FromMatched decl edge)
    (distinct : decl.ends.first ≠ decl.ends.second) : edge.ends.first ≠ edge.ends.second := by
  intro same
  have apart :
      (edge.ends.map Endpoint.matched).first ≠ (edge.ends.map Endpoint.matched).second := by
    refine distinct_of_endpoints (d := d) distinct fun side => ?_
    rw [Ends.get_map]
    exact slots.ends side
  exact apart (congrArg Endpoint.matched same)

/-- A socket that names a cut edge at the declared vertex names one at the compiled vertex. -/
theorem FromAdded.exists_socket {edges : List (MatchedEdge D)}
    (matched : d.matchedEdges = .ok edges) {ends : Ends Nat} {sockets : Ends (Option Nat)}
    {edge : AddedEdge D} (slots : d.FromAdded ends sockets edge) {side : Side} {i c : Nat}
    (target : d.endpoint? (ends.get side) = some (.matched i))
    (vacates : ∀ c', sockets.get side = some c' → d.Vacates c' (ends.get side))
    (socket : edge.sockets.get side = some c) :
    ∃ e, edges[c]? = some e ∧ e.fate.isCut = true ∧ e.ends.Touches i := by
  rw [slots.sockets side] at socket
  obtain ⟨c', hc', slot⟩ := Option.bind_eq_some_iff.mp socket
  obtain ⟨decl, declared, cut, touches⟩ := vacates c' hc'
  obtain ⟨decl', declared', listed⟩ := edgeSlot?_eq_some slot
  rw [declared] at declared'
  cases declared'
  obtain ⟨e, found, slots'⟩ := (forall₂_getElem? (forall₂_matchedEdges matched) c).1 decl listed
  refine ⟨e, found, by rw [slots'.fate]; exact cut, ?_⟩
  obtain ⟨side', at'⟩ := Ends.touches_iff_get.mp touches
  have target' := slots'.ends side'
  rw [at', target] at target'
  cases target'
  exact Ends.touches_iff_get.mpr ⟨side', rfl⟩

theorem wellFormed_compile (sound : d.Sound) (h : d.compile id accepts = .ok rule) :
    rule.WellFormed ∧ rule.id = id := by
  unfold compile at h
  split at h
  · cases h
  obtain ⟨edges, matched, h⟩ := bind_ok h
  obtain ⟨addedEdges, added, h⟩ := bind_ok h
  cases h
  refine ⟨⟨?matched, ?added, rfl⟩, rfl⟩
  case matched =>
    intro edge mem
    obtain ⟨i, found⟩ := List.getElem?_of_mem mem
    obtain ⟨decl, there, slots⟩ :=
      (forall₂_getElem? (forall₂_matchedEdges matched) i).2 edge found
    obtain ⟨j, declared⟩ := mem_matchedDecls (List.mem_of_getElem? there)
    exact ⟨slots.distinct (sound j _ declared).1, slots.inside⟩
  case added =>
    intro edge mem
    obtain ⟨j, tag, ends, sockets, creation, declared, slots⟩ := fromAdded_of_mem added mem
    obtain ⟨distinct, fits⟩ := sound j _ declared
    refine ⟨distinct_of_endpoints distinct slots.ends, ?_⟩
    intro side
    obtain ⟨⟨uncut, there, role⟩, socketed⟩ := fits side
    have target := slots.ends side
    rcases endpoint?_cases target with ⟨vertex, found, i, same, inRule⟩ | ⟨vertex, found, k, same,
      inRule⟩
    · rw [same] at target ⊢
      rw [found] at there
      cases there
      refine ⟨⟨vertex, inRule, ?_⟩, fun c => slots.exists_socket matched target
        fun c' hc' => (socketed c' hc').2⟩
      cases fate : vertex.fate with
      | kept => rfl
      | cut removal => simp [VertexDecl.role, Fate.role, fate] at role
    · rw [same]
      refine ⟨inRule, ?_⟩
      rw [slots.sockets side]
      cases socket : sockets.get side with
      | none => rfl
      | some c =>
        obtain ⟨⟨decl, found', role'⟩, -⟩ := socketed c socket
        rw [found] at found'
        cases found'
        exact absurd rfl role'

end Draft

/-- The rules that drafts compile to. -/
def Rule.Compiled (r : Rule D) : Prop :=
  ∃ (declarations : List (Declaration D)) (id : RuleId) (accepts : Option (OccurrenceCheck D)),
    (Draft.empty.declareAll declarations).compile id accepts = .ok r

theorem Rule.Compiled.wellFormed {r : Rule D} (compiled : r.Compiled) : r.WellFormed := by
  obtain ⟨declarations, id, accepts, h⟩ := compiled
  exact (Draft.wellFormed_compile (Draft.Sound.empty.declareAll declarations) h).1

namespace Grammar

/-- The grammars that registration grows from drafts. -/
inductive Grown : Grammar D → Prop
  | empty (settings : Settings) : Grown (.empty settings)
  | add {g : Grammar D} (declarations : List (Declaration D))
      (accepts : Option (OccurrenceCheck D)) :
      Grown g → Grown (g.add (Draft.empty.declareAll declarations) accepts).grammar

variable {g : Grammar D}

/-- The rules are well formed and know their places, and the grammar is armed once one of them
has an edge spliced at both ends. -/
structure Sound (g : Grammar D) : Prop where
  rules : ∀ (i : Nat) (rule : Rule D), g.rules[i]? = some rule → rule.WellFormed ∧ rule.id = ⟨i⟩
  armed : g.armed = g.rules.toList.any (·.hasPotentialLoop)

theorem Sound.add (sound : g.Sound) {d : Draft D} (drafted : d.Sound)
    (accepts : Option (OccurrenceCheck D)) : (g.add d accepts).grammar.Sound := by
  unfold Grammar.add
  split
  · exact sound
  · next rule compiled =>
    obtain ⟨wellFormed, id⟩ := Draft.wellFormed_compile drafted compiled
    constructor
    · intro i rule' found
      simp only [register, Array.getElem?_push] at found
      split at found
      · next last =>
        cases found
        exact ⟨wellFormed, by rw [id, nextRule, last]⟩
      · exact sound.rules i rule' found
    · simp [register, sound.armed]

theorem Sound.armed_iff (sound : g.Sound) :
    g.armed = true ↔ ∃ rule ∈ g.rules, ∃ e ∈ rule.addedEdges, e.IsSpliced := by
  simp only [sound.armed, List.any_eq_true, Array.mem_toList_iff, Rule.hasPotentialLoop_iff]

theorem Grown.sound (grown : g.Grown) : g.Sound := by
  induction grown with
  | empty settings =>
    constructor
    · intro i rule found
      simp [Grammar.empty] at found
    · rfl
  | add declarations accepts _ ih =>
    exact ih.add (Draft.Sound.empty.declareAll declarations) accepts

theorem Grown.compiled (grown : g.Grown) : ∀ rule ∈ g.rules, rule.Compiled := by
  induction grown with
  | empty settings =>
    intro rule registered
    simp [Grammar.empty] at registered
  | add declarations accepts _ ih =>
    unfold Grammar.add
    split
    · exact ih
    · next compiled =>
      intro rule registered
      rcases Array.mem_push.mp registered with earlier | rfl
      · exact ih rule earlier
      · exact ⟨declarations, _, accepts, compiled⟩

end Grammar

end GraphSplice
