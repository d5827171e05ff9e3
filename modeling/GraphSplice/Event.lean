/-!
What happens while rules are registered, matched and applied and while profiles are read is told
as a list of events in order. An event carries its data; its level, wording and fields are
functions of it.
-/

namespace GraphSplice

inductive Level where
  | trace
  | debug
  | warn
  deriving DecidableEq, Repr

def Level.name : Level → String
  | .trace => "TRACE"
  | .debug => "DEBUG"
  | .warn => "WARN"

inductive Field where
  | count (n : Nat)
  | flag (b : Bool)
  | text (s : String)
  deriving DecidableEq, Repr

/-- The three kinds of edge that a rule can declare, as they are named in refusals. -/
inductive Connection where
  | kept
  | cut
  | added
  deriving DecidableEq, Repr

/-- The two moments at which the wiring of a batch can be shown. -/
inductive Stage where
  | inserted
  | merged
  deriving DecidableEq, Repr

inductive Event where
  | connectionRefused (connection : Connection) (reason : String)
  | emptyRuleRefused
  | registering (rule : String) (required added symmetries : Nat) (potentialLoop deletes : Bool)
  | conflict (victim cutter : String)
  | selfConflict (rule : String)
  | matched (rule : String) (count : Nat)
  | conflictingTogether (victim cutter : String)
  | wiringShown (stage : Stage) (text : String)
  | reconciled (applications sockets nodes dangling : Nat)
  | linkFolded (origin : String)
  | applied (vertices edges createdVertices createdEdges : Nat)
  | selected (candidates kept : Nat)
  | defaultsUsed (profile : String)
  | profileSaved (profile : String) (bytes : Nat)
  deriving DecidableEq, Repr

namespace Event

def level : Event → Level
  | wiringShown .. | linkFolded .. => .trace
  | conflictingTogether .. => .warn
  | _ => .debug

def message : Event → String
  | connectionRefused .kept _ => "rejected connection"
  | connectionRefused .cut _ => "rejected cut connection"
  | connectionRefused .added _ => "rejected new connection"
  | emptyRuleRefused => "rejected rule without vertices"
  | registering .. => "registering rule"
  | conflict .. => "conflict"
  | selfConflict .. => "self-conflict"
  | matched .. => "matched"
  | conflictingTogether .. => "conflicting rules applied in one batch"
  | wiringShown .inserted _ => "after insertions"
  | wiringShown .merged _ => "after merging"
  | reconciled .. => "pre-graph reconciled"
  | linkFolded .. => "dropping new link folded onto a single vertex"
  | applied .. => "rewrite complete"
  | selected .. => "independent selection"
  | defaultsUsed .. => "no stored profile, using defaults"
  | profileSaved .. => "profile saved"

def fields : Event → List (String × Field)
  | connectionRefused _ reason => [("err", .text reason)]
  | emptyRuleRefused => []
  | registering rule required added symmetries potentialLoop deletes =>
    [("rule", .text rule), ("match_nodes", .count required), ("new_nodes", .count added),
      ("automorphisms", .count symmetries), ("potential_loop", .flag potentialLoop),
      ("deletes", .flag deletes)]
  | conflict victim cutter => [("victim", .text victim), ("cutter", .text cutter)]
  | selfConflict rule => [("rule", .text rule)]
  | matched rule count => [("rule", .text rule), ("matches", .count count)]
  | conflictingTogether victim cutter => [("victim", .text victim), ("cutter", .text cutter)]
  | wiringShown _ text => [("pregraph", .text text)]
  | reconciled applications sockets nodes dangling =>
    [("applications", .count applications), ("ports_merged", .count sockets),
      ("nodes_merged", .count nodes), ("dangling", .count dangling)]
  | linkFolded origin => [("origin", .text origin)]
  | applied vertices edges createdVertices createdEdges =>
    [("vertices", .count vertices), ("edges", .count edges),
      ("created_vertices", .count createdVertices), ("created_edges", .count createdEdges)]
  | selected candidates kept => [("candidates", .count candidates), ("kept", .count kept)]
  | defaultsUsed profile => [("profile", .text profile)]
  | profileSaved profile bytes => [("profile", .text profile), ("bytes", .count bytes)]

end Event

end GraphSplice
