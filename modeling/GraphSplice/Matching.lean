import GraphSplice.Rule
import GraphSplice.Search

/-!
Matching a rule against a host graph. Each embedding is put to the predicates of the rule;
embeddings that differ by a symmetry of the rule are one occurrence, of which the first is taken.
The state of the caller passes through every predicate call, also those in branches given up.
-/

namespace GraphSplice

variable {D : Domain}

/-- What a search for occurrences carries along: the state of the caller, the keys of the
occurrences taken, and these occurrences in order. -/
structure Harvest (D : Domain) where
  state : D.MatchState
  keys : List (List Nat)
  found : Array Occurrence

namespace Rule

def checkVertexAt (r : Rule D) (context : MatchContext D) (i t : Nat) (s : D.MatchState) :
    Bool × D.MatchState :=
  match (r.vertices[i]?).bind (·.check) with
  | none => (true, s)
  | some check => check context ⟨t⟩ s

def checkEdgeAt (r : Rule D) (context : MatchContext D) (j t : Nat) (s : D.MatchState) :
    Bool × D.MatchState :=
  match (r.edges[j]?).bind (·.check) with
  | none => (true, s)
  | some check => check context ⟨t⟩ s

def checkOccurrence (r : Rule D) (context : MatchContext D) (o : Occurrence) (s : D.MatchState) :
    Bool × D.MatchState :=
  match r.accepts with
  | none => (true, s)
  | some check => check context o s

def reached (limit : Option Nat) (count : Nat) : Bool := limit.any (· ≤ count)

/-- Takes an embedding that passes the whole-match predicate unless one symmetric to it has been
taken before. -/
def takeEmbedding (r : Rule D) (context : MatchContext D) (limit : Option Nat) (m : Embedding)
    (h : Harvest D) : Flow × Harvest D :=
  let o : Occurrence := ⟨m.vertices.map Handle.mk, m.edges.map Handle.mk⟩
  match r.checkOccurrence context o h.state with
  | (false, s) => (.more, { h with state := s })
  | (true, s) =>
    let key := Symmetry.canonicalKey r.symmetries m.vertices
    if r.isSymmetric ∧ key ∈ h.keys then (.more, { h with state := s })
    else
      let keys := if r.isSymmetric then key :: h.keys else h.keys
      let found := h.found.push o
      (if reached limit found.size then .done else .more, ⟨s, keys, found⟩)

def hostGuide (r : Rule D) (context : MatchContext D) (limit : Option Nat) :
    Guide (Harvest D) where
  vertex i t h :=
    let (ok, s) := r.checkVertexAt context i t h.state
    (ok, { h with state := s })
  edge j t h :=
    let (ok, s) := r.checkEdgeAt context j t h.state
    (ok, { h with state := s })
  visit := r.takeEmbedding context limit

/-- The occurrences of the rule in `host`, at most `limit` of them. A limit of zero asks no
predicate. -/
def occurrences (r : Rule D) (host : Host D) (limit : Option Nat) (s : D.MatchState) :
    List Occurrence × D.MatchState :=
  if limit = some 0 then ([], s)
  else
    let guide := r.hostGuide ⟨host, r.id⟩ limit
    let harvest := (Search.run guide r.pattern host.asTarget ⟨s, [], #[]⟩).2
    (harvest.found.toList, harvest.state)

end Rule

end GraphSplice
