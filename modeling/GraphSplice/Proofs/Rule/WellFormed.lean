import GraphSplice.Proofs.Except
import GraphSplice.Proofs.Lists
import GraphSplice.Proofs.Rule.Calls
import GraphSplice.Proofs.Wiring.Arena
import Mathlib.Data.List.Basic

/-!
What every rule that a draft compiles to can be relied on for. A draft only holds edges whose
ends were checked against the vertices declared before them, and whose sockets are cut edges that
end there; compilation carries this over to the numbers of the rule.
-/

namespace GraphSplice

variable {D : Domain}

/-- A matched endpoint is a kept vertex, and its socket a cut edge that ends there; a created one
has no socket. -/
def Rule.Anchors (r : Rule D) : Endpoint → Option Nat → Prop
  | .matched i, socket => (∃ v, r.vertices[i]? = some v ∧ v.fate.isCut = false) ∧
      ∀ c, socket = some c →
        ∃ e, r.edges[c]? = some e ∧ e.fate.isCut = true ∧ e.ends.Touches i
  | .created k, socket => k < r.addedVertices.length ∧ socket = none

structure Rule.WellFormed (r : Rule D) : Prop where
  matched : ∀ e ∈ r.edges, e.ends.first ≠ e.ends.second ∧
    ∀ side, e.ends.get side < r.vertices.length
  added : ∀ e ∈ r.addedEdges, e.ends.first ≠ e.ends.second ∧
    ∀ side, r.Anchors (e.ends.get side) (e.sockets.get side)
  symmetries : r.symmetries =
    (Rule.sketch r.vertices r.edges r.addedVertices r.addedEdges).symmetries

namespace Draft

/-- The vertex is declared with a role that the test accepts. -/
def HasRole (d : Draft D) (test : Role → Prop) (vertex : Nat) : Prop :=
  ∃ decl, d.vertices[vertex]? = some decl ∧ test decl.role

/-- The edge is declared as a cut one that ends at the vertex. -/
def Vacates (d : Draft D) (edge vertex : Nat) : Prop :=
  ∃ decl, d.edges[edge]? = some (.matched decl) ∧ decl.fate.isCut = true ∧
    decl.ends.Touches vertex

/-- The ends of a declared edge are as its declaration requires. -/
def Fits (d : Draft D) : EdgeDecl D → Prop
  | .matched edge => edge.ends.first ≠ edge.ends.second ∧
      ∀ side, d.HasRole (· ≠ .added) (edge.ends.get side)
  | .added _ ends sockets _ => ends.first ≠ ends.second ∧
      ∀ side, d.HasRole (· ≠ .cut) (ends.get side) ∧ ∀ c, sockets.get side = some c →
        d.HasRole (· ≠ .added) (ends.get side) ∧ d.Vacates c (ends.get side)

def Sound (d : Draft D) : Prop :=
  ∀ (j : Nat) (decl : EdgeDecl D), d.edges[j]? = some decl → d.Fits decl

/-- Both declarations say the same, but for callbacks. -/
def SameEdge : EdgeDecl D → EdgeDecl D → Prop
  | .matched e, .matched f => e.tag = f.tag ∧ e.ends = f.ends ∧ e.fate.isCut = f.fate.isCut
  | .added tag ends sockets _, .added tag' ends' sockets' _ =>
    tag = tag' ∧ ends = ends' ∧ sockets = sockets'
  | _, _ => False

/-- The later draft declares all that the earlier one does. -/
structure Extends (d d' : Draft D) : Prop where
  vertices : ∀ (v : Nat) (decl : VertexDecl D), d.vertices[v]? = some decl →
    ∃ decl', d'.vertices[v]? = some decl' ∧ decl'.role = decl.role
  edges : ∀ (j : Nat) (decl : EdgeDecl D), d.edges[j]? = some decl →
    ∃ decl', d'.edges[j]? = some decl' ∧ SameEdge decl decl'

variable {d d' : Draft D}

theorem SameEdge.refl (decl : EdgeDecl D) : SameEdge decl decl := by
  cases decl <;> simp [SameEdge]

theorem HasRole.extend {test : Role → Prop} {v : Nat} (h : d.HasRole test v)
    (later : d.Extends d') : d'.HasRole test v := by
  obtain ⟨decl, found, role⟩ := h
  obtain ⟨decl', found', same⟩ := later.vertices v decl found
  exact ⟨decl', found', same ▸ role⟩

theorem Vacates.extend {c v : Nat} (h : d.Vacates c v) (later : d.Extends d') :
    d'.Vacates c v := by
  obtain ⟨edge, found, cut, touches⟩ := h
  obtain ⟨decl', found', same⟩ := later.edges c _ found
  cases decl' with
  | matched edge' =>
    obtain ⟨-, ends, fate⟩ := same
    exact ⟨edge', found', fate ▸ cut, ends ▸ touches⟩
  | added tag ends sockets creation => cases same

theorem Fits.extend {decl : EdgeDecl D} (h : d.Fits decl) (later : d.Extends d') :
    d'.Fits decl := by
  cases decl with
  | matched edge => exact ⟨h.1, fun side => (h.2 side).extend later⟩
  | added tag ends sockets creation =>
    refine ⟨h.1, fun side => ⟨(h.2 side).1.extend later, fun c hc => ?_⟩⟩
    obtain ⟨role, vacates⟩ := (h.2 side).2 c hc
    exact ⟨role.extend later, vacates.extend later⟩

theorem Fits.of_same {decl decl' : EdgeDecl D} (h : d.Fits decl) (same : SameEdge decl decl') :
    d.Fits decl' := by
  cases decl <;> cases decl' <;> simp only [SameEdge] at same
  · obtain ⟨-, ends, -⟩ := same
    simpa only [Fits, ends] using h
  · obtain ⟨-, rfl, rfl⟩ := same
    exact h

/-! ## Declarations -/

theorem extends_declareVertex (d : Draft D) (vertex : VertexDecl D) :
    d.Extends (d.declareVertex vertex) where
  vertices v decl h := by
    have inside := (Array.getElem?_eq_some_iff.mp h).1
    refine ⟨decl, ?_, rfl⟩
    simp only [declareVertex]
    rw [Array.getElem?_push, if_neg (Nat.ne_of_lt inside), h]
  edges _ decl h := ⟨decl, h, .refl decl⟩

theorem extends_declareEdge (d : Draft D) (edge : EdgeDecl D) :
    d.Extends (d.declareEdge edge) where
  vertices _ decl h := ⟨decl, h, rfl⟩
  edges j decl h := by
    have inside := (Array.getElem?_eq_some_iff.mp h).1
    refine ⟨decl, ?_, .refl decl⟩
    simp only [declareEdge]
    rw [Array.getElem?_push, if_neg (Nat.ne_of_lt inside), h]

theorem Sound.declareVertex (sound : d.Sound) (vertex : VertexDecl D) :
    (d.declareVertex vertex).Sound :=
  fun j decl h => (sound j decl h).extend (d.extends_declareVertex vertex)

theorem Sound.declareEdge (sound : d.Sound) {edge : EdgeDecl D} (fits : d.Fits edge) :
    (d.declareEdge edge).Sound := by
  intro j decl h
  refine Fits.extend ?_ (d.extends_declareEdge edge)
  simp only [Draft.declareEdge, Array.getElem?_push] at h
  split at h
  · cases h
    exact fits
  · exact sound j decl h

theorem Sound.putVertex (sound : d.Sound) {v : Nat} {old new : VertexDecl D}
    (found : d.vertices[v]? = some old) (same : new.role = old.role) :
    (d.putVertex v new).Sound := by
  have later : d.Extends (d.putVertex v new) := by
    refine ⟨?_, fun _ decl h => ⟨decl, h, .refl decl⟩⟩
    intro u decl h
    simp only [Draft.putVertex, Array.getElem?_setIfInBounds]
    by_cases hu : v = u
    · subst hu
      rw [found] at h
      cases h
      simp [(Array.getElem?_eq_some_iff.mp found).1, same]
    · simp [hu, h]
  exact fun j decl h => (sound j decl h).extend later

theorem Sound.putEdge (sound : d.Sound) {j : Nat} {old new : EdgeDecl D}
    (found : d.edges[j]? = some old) (same : SameEdge old new) : (d.putEdge j new).Sound := by
  have inside := (Array.getElem?_eq_some_iff.mp found).1
  have later : d.Extends (d.putEdge j new) := by
    refine ⟨fun _ decl h => ⟨decl, h, rfl⟩, ?_⟩
    intro i decl h
    simp only [Draft.putEdge, Array.getElem?_setIfInBounds]
    by_cases hi : j = i
    · subst hi
      rw [found] at h
      cases h
      simp [inside, same]
    · exact ⟨decl, by simp [hi, h], .refl decl⟩
  intro i decl h
  refine Fits.extend ?_ later
  simp only [Draft.putEdge, Array.getElem?_setIfInBounds, inside, if_true] at h
  split at h
  · cases h
    exact (sound j old found).of_same same
  · exact sound i decl h

/-! ## Checks -/

theorem hasRole_of_refuseAdded {v : Nat} (h : d.refuseAdded v = .ok ()) :
    d.HasRole (· ≠ .added) v := by
  unfold refuseAdded vertexRole at h
  cases found : d.vertices[v]? with
  | none =>
    rw [found] at h
    cases h
  | some decl =>
    rw [found] at h
    refine ⟨decl, found, ?_⟩
    intro role
    simp only [bind, Except.bind, role] at h
    cases h

theorem hasRole_of_refuseCut {v : Nat} (h : d.refuseCut v = .ok ()) :
    d.HasRole (· ≠ .cut) v := by
  unfold refuseCut vertexRole at h
  cases found : d.vertices[v]? with
  | none =>
    rw [found] at h
    cases h
  | some decl =>
    rw [found] at h
    refine ⟨decl, found, ?_⟩
    intro role
    simp only [bind, Except.bind, role] at h
    cases h

theorem distinct_of_refuseLoop {ends : Ends Nat} (h : refuseLoop ends = .ok ()) :
    ends.first ≠ ends.second := by
  unfold refuseLoop at h
  split at h
  · cases h
  · assumption

theorem socket_of_checkSocket {v : Nat} {socket : Option Nat} (h : d.checkSocket v socket = .ok ())
    (c : Nat) (hc : socket = some c) : d.HasRole (· ≠ .added) v ∧ d.Vacates c v := by
  subst hc
  obtain ⟨_, role, rest⟩ := bind_ok h
  refine ⟨hasRole_of_refuseAdded role, ?_⟩
  split at rest
  · cases rest
  · cases rest
  · next decl found =>
    split at rest
    · next valid => exact ⟨decl, found, valid.1, valid.2⟩
    · cases rest

theorem fits_of_checkMatchedEnds {ends : Ends Nat} (h : d.checkMatchedEnds ends = .ok ()) :
    ends.first ≠ ends.second ∧ ∀ side, d.HasRole (· ≠ .added) (ends.get side) := by
  obtain ⟨_, first, h⟩ := bind_ok h
  obtain ⟨_, second, h⟩ := bind_ok h
  refine ⟨distinct_of_refuseLoop h, ?_⟩
  intro side
  cases side with
  | first => exact hasRole_of_refuseAdded first
  | second => exact hasRole_of_refuseAdded second

theorem fits_of_checkAddedEnds {ends : Ends Nat} {sockets : Ends (Option Nat)}
    (h : d.checkAddedEnds ends sockets = .ok ()) (tag : Tag) (creation : Option (EdgeCreation D)) :
    d.Fits (.added tag ends sockets creation) := by
  obtain ⟨_, first, h⟩ := bind_ok h
  obtain ⟨_, second, h⟩ := bind_ok h
  obtain ⟨_, distinct, h⟩ := bind_ok h
  obtain ⟨_, socketFirst, socketSecond⟩ := bind_ok h
  refine ⟨distinct_of_refuseLoop distinct, ?_⟩
  intro side
  cases side with
  | first => exact ⟨hasRole_of_refuseCut first, socket_of_checkSocket socketFirst⟩
  | second => exact ⟨hasRole_of_refuseCut second, socket_of_checkSocket socketSecond⟩

theorem Sound.empty : (Draft.empty : Draft D).Sound := by
  intro j decl h
  simp [Draft.empty] at h

/-! ## Calls -/

/-- What an accepted call makes of the draft. -/
inductive Accepts (d : Draft D) (x : Declaration D) : Draft D → Prop
  | named (name : String) : x.vertex? = none → x.edge? = none → Accepts d x (d.named name)
  | vertex (decl : VertexDecl D) : x.vertex? = some decl.call → x.edge? = none →
      Accepts d x (d.declareVertex decl)
  | edge (decl : EdgeDecl D) : x.vertex? = none → x.edge? = some decl.call → d.Fits decl →
      Accepts d x (d.declareEdge decl)
  | onVertex {v : Nat} {old new : VertexDecl D} : x.vertex? = none → x.edge? = none →
      d.vertices[v]? = some old → new.call = old.call → Accepts d x (d.putVertex v new)
  | onEdge {j : Nat} {old new : EdgeDecl D} : x.vertex? = none → x.edge? = none →
      d.edges[j]? = some old → new.call = old.call → Accepts d x (d.putEdge j new)

theorem Accepts.ofEdge {x : Declaration D} {connection : Connection}
    {after : Except DraftError (Draft D)} {number : Option Nat}
    (h : (Declared.ofEdge d connection after).result = .ok number)
    (each : ∀ d', after = .ok d' → d.Accepts x d') :
    d.Accepts x (Declared.ofEdge d connection after).draft := by
  cases after with
  | error e => cases h
  | ok d' => exact each d' rfl

theorem Accepts.ofCallback {x : Declaration D} {after : Except DraftError (Draft D)}
    {number : Option Nat} (h : (Declared.ofCallback d after).result = .ok number)
    (each : ∀ d', after = .ok d' → d.Accepts x d') :
    d.Accepts x (Declared.ofCallback d after).draft := by
  cases after with
  | error e => cases h
  | ok d' => exact each d' rfl

theorem accepts_declare {x : Declaration D} {number : Option Nat}
    (h : (d.declare x).result = .ok number) : d.Accepts x (d.declare x).draft := by
  cases x with
  | named name => exact .named name rfl rfl
  | keepVertex tag | cutVertex tag | addVertex tag => exact .vertex _ rfl rfl
  | keepEdge a b tag =>
    refine .ofEdge h fun d' made => ?_
    obtain ⟨_, checked, made⟩ := bind_ok made
    cases made
    exact .edge _ rfl rfl (fits_of_checkMatchedEnds checked)
  | cutEdge a b tag =>
    refine .ofEdge h fun d' made => ?_
    obtain ⟨_, checked, made⟩ := bind_ok made
    cases made
    exact .edge _ rfl rfl (fits_of_checkMatchedEnds checked)
  | addEdge a b socketA socketB tag =>
    refine .ofEdge h fun d' made => ?_
    obtain ⟨_, checked, made⟩ := bind_ok made
    cases made
    exact .edge _ rfl rfl (fits_of_checkAddedEnds checked tag none)
  | checkVertex vertex check =>
    refine .ofCallback h fun d' made => ?_
    unfold Draft.checkVertex at made
    split at made
    · cases made
    · cases made
    · next decl found =>
      cases made
      exact .onVertex rfl rfl found rfl
  | checkEdge edge check =>
    refine .ofCallback h fun d' made => ?_
    unfold Draft.checkEdge at made
    split at made
    · cases made
    · cases made
    · next decl found =>
      cases made
      exact .onEdge rfl rfl found rfl
  | onRemoveVertex vertex removal =>
    refine .ofCallback h fun d' made => ?_
    unfold Draft.onRemoveVertex at made
    split at made
    · cases made
    · cases made
    · next decl found =>
      split at made
      · cases made
      · next fate =>
        cases made
        exact .onVertex rfl rfl found (by simp [VertexDecl.call, Fate.role, fate])
  | onRemoveEdge edge removal =>
    refine .ofCallback h fun d' made => ?_
    unfold Draft.onRemoveEdge at made
    split at made
    · cases made
    · cases made
    · next decl found =>
      split at made
      · cases made
      · next fate =>
        cases made
        exact .onEdge rfl rfl found (by simp [EdgeDecl.call, Fate.role, fate])
  | onCreateVertex vertex creation =>
    refine .ofCallback h fun d' made => ?_
    unfold Draft.onCreateVertex at made
    split at made
    · cases made
    · cases made
    · next decl found =>
      cases made
      exact .onVertex rfl rfl found rfl
  | onCreateEdge edge creation =>
    refine .ofCallback h fun d' made => ?_
    unfold Draft.onCreateEdge at made
    split at made
    · cases made
    · cases made
    · next found =>
      cases made
      exact .onEdge rfl rfl found rfl

theorem sameEdge_of_call {old new : EdgeDecl D} (same : new.call = old.call) :
    SameEdge old new := by
  cases old with
  | matched old =>
    cases new with
    | matched new =>
      obtain ⟨role, tag, ends, -⟩ := EdgeCall.mk.inj same
      refine ⟨tag.symm, ends.symm, ?_⟩
      rw [Bool.eq_iff_iff, Fate.isCut_iff, Fate.isCut_iff, role]
    | added tag ends sockets creation =>
      have role := congrArg EdgeCall.role same
      cases fate : old.fate <;> simp [EdgeDecl.call, Fate.role, fate] at role
  | added tag ends sockets creation =>
    cases new with
    | matched new =>
      have role := congrArg EdgeCall.role same
      cases fate : new.fate <;> simp [EdgeDecl.call, Fate.role, fate] at role
    | added =>
      obtain ⟨-, tag, ends, sockets⟩ := EdgeCall.mk.inj same
      exact ⟨tag.symm, ends.symm, sockets.symm⟩

theorem Sound.accept (sound : d.Sound) {x : Declaration D} (accepts : d.Accepts x d') :
    d'.Sound := by
  cases accepts with
  | named => exact sound
  | vertex decl => exact sound.declareVertex decl
  | edge decl _ _ fits => exact sound.declareEdge fits
  | @onVertex v old new _ _ found same =>
    exact sound.putVertex found (by rw [new.role_eq, old.role_eq, same])
  | onEdge _ _ found same => exact sound.putEdge found (sameEdge_of_call same)

theorem Sound.declare (sound : d.Sound) (x : Declaration D) : (d.declare x).draft.Sound := by
  cases outcome : (d.declare x).result with
  | error e =>
    rw [draft_declare_of_error outcome]
    exact sound
  | ok number => exact sound.accept (accepts_declare outcome)

theorem Sound.declareAll (sound : d.Sound) (declarations : List (Declaration D)) :
    (d.declareAll declarations).Sound := by
  unfold Draft.declareAll
  induction declarations generalizing d with
  | nil => exact sound
  | cons x rest ih => exact ih (sound.declare x)

/-! ## Compilation -/

/-- An element that the filter takes comes after as many as it takes before it. -/
theorem getElem?_filterMap_countP {α β : Type} (f : α → Option β) (test : α → Bool)
    (same : ∀ x, test x = (f x).isSome) (xs : List α) {i : Nat} {x : α} {y : β}
    (hx : xs[i]? = some x) (hy : f x = some y) :
    (xs.filterMap f)[(xs.take i).countP test]? = some y := by
  induction xs generalizing i with
  | nil => simp at hx
  | cons z rest ih =>
    cases i with
    | zero =>
      simp only [List.getElem?_cons_zero, Option.some.injEq] at hx
      subst hx
      simp [hy]
    | succ i =>
      have later := ih (i := i) (by simpa using hx)
      cases hz : f z with
      | none => simp [hz, same z, later, List.take_succ_cons]
      | some y' => simp [hz, same z, later, List.take_succ_cons]

/-- Different elements that the filter takes come at different places. -/
theorem countP_take_inj {α : Type} (test : α → Bool) (xs : List α) {i j : Nat} {x y : α}
    (hx : xs[i]? = some x) (hy : xs[j]? = some y) (tx : test x = true) (ty : test y = true)
    (same : (xs.take i).countP test = (xs.take j).countP test) : i = j := by
  rcases Nat.lt_trichotomy i j with less | equal | greater
  · exact absurd same (Nat.ne_of_lt (countP_take_lt test less hx tx))
  · exact equal
  · exact absurd same.symm (Nat.ne_of_lt (countP_take_lt test greater hy ty))

theorem matchedVertices_getElem? {v : Nat} {vertex : MatchedVertex D}
    (h : d.vertices[v]? = some (.matched vertex)) :
    d.matchedVertices[(d.vertices.toList.take v).countP (·.role ≠ .added)]? = some vertex := by
  refine getElem?_filterMap_countP _ _ ?_ _ (by simpa using h) rfl
  intro decl
  cases decl with
  | matched vertex => cases h : vertex.fate <;> simp [VertexDecl.role, Fate.role, h]
  | added vertex => simp [VertexDecl.role]

theorem addedVertices_getElem? {v : Nat} {vertex : AddedVertex D}
    (h : d.vertices[v]? = some (.added vertex)) :
    d.addedVertices[(d.vertices.toList.take v).countP (·.role = .added)]? = some vertex := by
  refine getElem?_filterMap_countP _ _ ?_ _ (by simpa using h) rfl
  intro decl
  cases decl with
  | matched vertex => cases h : vertex.fate <;> simp [VertexDecl.role, Fate.role, h]
  | added vertex => simp [VertexDecl.role]

/-- Where a declared vertex went in the rule. -/
theorem endpoint?_cases {v : Nat} {x : Endpoint} (h : d.endpoint? v = some x) :
    (∃ vertex, d.vertices[v]? = some (.matched vertex) ∧
      ∃ i, x = .matched i ∧ d.matchedVertices[i]? = some vertex) ∨
    ∃ vertex, d.vertices[v]? = some (.added vertex) ∧
      ∃ k, x = .created k ∧ k < d.addedVertices.length := by
  obtain ⟨decl, found, same⟩ := Option.map_eq_some_iff.mp h
  cases decl with
  | matched vertex => exact .inl ⟨vertex, found, _, same.symm, matchedVertices_getElem? found⟩
  | added vertex =>
    have there := addedVertices_getElem? found
    exact .inr ⟨vertex, found, _, same.symm, (List.getElem?_eq_some_iff.mp there).1⟩

theorem endpoint?_inj {u v : Nat} {x : Endpoint} (hu : d.endpoint? u = some x)
    (hv : d.endpoint? v = some x) : u = v := by
  obtain ⟨decl, found, same⟩ := Option.map_eq_some_iff.mp hu
  obtain ⟨decl', found', same'⟩ := Option.map_eq_some_iff.mp hv
  have role : ∀ vertex : MatchedVertex D, (VertexDecl.matched vertex).role ≠ .added := by
    intro vertex
    cases h : vertex.fate <;> simp [VertexDecl.role, Fate.role, h]
  cases decl <;> cases decl' <;> simp only at same same' <;> rw [← same] at same' <;>
    simp only [Endpoint.matched.injEq, Endpoint.created.injEq, reduceCtorEq] at same'
  · exact (countP_take_inj (·.role ≠ .added) d.vertices.toList (by simpa using found')
      (by simpa using found) (by simp [role]) (by simp [role]) same').symm
  · exact (countP_take_inj (·.role = .added) d.vertices.toList (by simpa using found')
      (by simpa using found) (by simp [VertexDecl.role]) (by simp [VertexDecl.role]) same').symm

theorem matchedSlot_eq_ok {v i : Nat} (h : d.matchedSlot v = .ok i) :
    d.endpoint? v = some (.matched i) := by
  unfold matchedSlot at h
  split at h
  · cases h
  · next found =>
    cases h
    exact found
  · cases h

theorem endpoint_eq_ok {v : Nat} {x : Endpoint} (h : d.endpoint v = .ok x) :
    d.endpoint? v = some x := by
  unfold endpoint at h
  split at h
  · cases h
  · next found =>
    cases h
    exact found

end Draft

end GraphSplice
