import GraphSplice.Derivation
import GraphSplice.Footprint
import GraphSplice.Matching
import GraphSplice.Rule.Conflict
import GraphSplice.Rule.Draft
import GraphSplice.Settings

/-!
Grammars: rules registered one after the other over one domain. Registration analyses the
conflicts of the new rule with itself and with all rules before it, so the table of conflicts is
complete at any time. A grammar finds the occurrences of its rules in a host graph, selects
independent applications and derives graphs.
-/

namespace GraphSplice

structure Grammar (D : Domain) where
  rules : Array (Rule D)
  /-- The conflicts among the rules, ascending. -/
  conflicts : List Conflict
  /-- Some rule adds an edge that is spliced at both ends. -/
  armed : Bool
  settings : Settings

namespace Grammar

variable {D : Domain}

def empty (settings : Settings) : Grammar D := ⟨#[], [], false, settings⟩

def rule? (g : Grammar D) (id : RuleId) : Option (Rule D) := g.rules[id.slot]?

def ruleIds (g : Grammar D) : List RuleId := g.rules.toList.map (·.id)

/-- The identity of the rule registered next. -/
def nextRule (g : Grammar D) : RuleId := ⟨g.rules.size⟩

/-! ## Registration -/

/-- What the analysis of a new rule finds: conflicts, and the events that tell of them. -/
structure Findings where
  conflicts : List Conflict
  events : List Event

namespace Findings

def note (found : Findings) (conflict : Conflict) (event : Event) : Findings :=
  ⟨Ascending.insert conflict found.conflicts, found.events ++ [event]⟩

def compareAs (victim cutter : Rule D) (found : Findings) : Findings :=
  if victim.conflicts cutter then
    found.note ⟨victim.id, cutter.id⟩ (.conflict victim.label cutter.label)
  else found

/-- Compares a new rule with an earlier one in both directions. -/
def compareBoth (rule : Rule D) (found : Findings) (earlier : Rule D) : Findings :=
  compareAs rule earlier (compareAs earlier rule found)

def compareSelf (rule : Rule D) (found : Findings) : Findings :=
  if rule.conflicts rule then found.note ⟨rule.id, rule.id⟩ (.selfConflict rule.label) else found

end Findings

def register (g : Grammar D) (rule : Rule D) : Grammar D × List Event :=
  let start := Event.registering rule.label rule.vertices.length rule.addedVertices.length
    rule.symmetries.length rule.hasPotentialLoop rule.deletes
  let found := Findings.compareSelf rule
    (g.rules.toList.foldl (Findings.compareBoth rule) ⟨g.conflicts, [start]⟩)
  (⟨g.rules.push rule, found.conflicts, g.armed || rule.hasPotentialLoop, g.settings⟩,
    found.events)

/-- What an attempt to register a rule comes to. -/
structure Registered (D : Domain) where
  grammar : Grammar D
  result : Except DraftError RuleId
  events : List Event

def refusalEvents : DraftError → List Event
  | .empty => [.emptyRuleRefused]
  | _ => []

/-- Compiles a draft and registers the rule. A refused draft leaves the grammar as it is. -/
def add (g : Grammar D) (d : Draft D) (accepts : Option (OccurrenceCheck D)) : Registered D :=
  match d.compile g.nextRule accepts with
  | .error e => ⟨g, .error e, refusalEvents e⟩
  | .ok rule =>
    let (grown, events) := g.register rule
    ⟨grown, .ok rule.id, events⟩

/-! ## Conflicts -/

def hasConflicts (g : Grammar D) : Bool := !g.conflicts.isEmpty

/-- `cutter` may spoil an occurrence of `victim` in the same batch. -/
def inConflict (g : Grammar D) (victim cutter : RuleId) : Bool :=
  g.conflicts.contains ⟨victim, cutter⟩

def inConflictEither (g : Grammar D) (a b : RuleId) : Bool := g.inConflict a b || g.inConflict b a

/-! ## Matching -/

def find (g : Grammar D) (id : RuleId) (host : Host D) (s : D.MatchState) :
    Report D.MatchState (List Occurrence) :=
  match g.rule? id with
  | none => .fail (.unknownRule id) s []
  | some rule =>
    let (found, s) := rule.occurrences host g.settings.matchLimit s
    ⟨.ok found, s, [.matched rule.label found.length]⟩

/-- What a search over several rules has found so far. -/
structure Sighting (D : Domain) where
  applications : List Application
  state : D.MatchState
  events : List Event

def sight (g : Grammar D) (host : Host D) (seen : Sighting D) (rule : Rule D) : Sighting D :=
  let (found, s) := rule.occurrences host g.settings.matchLimit seen.state
  ⟨seen.applications ++ found.map (⟨rule.id, ·⟩), s,
    seen.events ++ [.matched rule.label found.length]⟩

/-- The occurrences of all rules, rule by rule. -/
def findAll (g : Grammar D) (host : Host D) (s : D.MatchState) : Sighting D :=
  g.rules.toList.foldl (g.sight host) ⟨[], s, []⟩

/-! ## Derivation -/

def resolveAll (g : Grammar D) (host : Host D) (batch : List Application) :
    Except ApplyError (List (Resolved D)) :=
  batch.mapM fun app => app.resolve g.rules host

def options (g : Grammar D) : Derivation.Options :=
  ⟨g.settings.parity.shouldCheck g.armed, g.settings.showWiring⟩

/-- Applies a batch in one pass. Nothing is done unless all its applications are valid. -/
def derive (g : Grammar D) (host : Host D) (batch : List Application) (s : D.BuildState) :
    Report D.BuildState (Derivation D) :=
  match g.resolveAll host batch with
  | .error e => .fail e s []
  | .ok resolved =>
    let report := Derivation.derive host resolved s g.options
    match report.result with
    | .error _ => report
    | .ok d =>
      { report with
        events := report.events ++ [.applied d.graph.order d.graph.size d.createdVertices.length
          d.createdEdges.length] }

def deriveOne (g : Grammar D) (host : Host D) (id : RuleId) (o : Occurrence) (s : D.BuildState) :
    Report D.BuildState (Derivation D) := g.derive host [⟨id, o⟩] s

/-- Applications of both rules of the conflict are in the batch. -/
def meetIn (batch : List Application) (c : Conflict) : Bool :=
  let uses (id : RuleId) : Nat := batch.countP (·.rule = id)
  if c.victim = c.cutter then decide (1 < uses c.victim)
  else decide (0 < uses c.victim) && decide (0 < uses c.cutter)

def warnings (g : Grammar D) (batch : List Application) : List Event :=
  (g.conflicts.filter (meetIn batch)).map fun c =>
    .conflictingTogether (ruleLabel c.victim) (ruleLabel c.cutter)

/-- Finds all occurrences of all rules and applies them in one pass. Conflicting rules that occur
together are reported and applied all the same. -/
def deriveAll (g : Grammar D) (host : Host D) (m : D.MatchState) (s : D.BuildState) :
    Report (D.MatchState × D.BuildState) (Derivation D) :=
  let seen := g.findAll host m
  let report := g.derive host seen.applications s
  ⟨report.result, (seen.state, report.state),
    seen.events ++ g.warnings seen.applications ++ report.events⟩

/-! ## Independence -/

def footprint (g : Grammar D) (host : Host D) (app : Application) : Except ApplyError Footprint :=
  (app.resolve g.rules host).map (Footprint.of host)

/-- Keeps the candidate if it is independent of all that were kept before. -/
def keep (g : Grammar D) (host : Host D) (kept : List (Application × Footprint))
    (app : Application) : Except ApplyError (List (Application × Footprint)) := do
  let f ← g.footprint host app
  return if kept.all fun k => f.independent k.2 then kept ++ [(app, f)] else kept

/-- The candidates, in order, that are independent of all those kept before them. -/
def selectIndependent (g : Grammar D) (host : Host D) (candidates : List Application) :
    Except ApplyError (List Application) :=
  (candidates.foldlM (g.keep host) []).map (·.map (·.1))

/-- The selection with the event that tells of it. -/
def select (g : Grammar D) (host : Host D) (candidates : List Application) :
    Except ApplyError (List Application × List Event) :=
  (g.selectIndependent host candidates).map fun kept =>
    (kept, [.selected candidates.length kept.length])

end Grammar

end GraphSplice
