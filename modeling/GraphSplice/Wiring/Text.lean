import GraphSplice.Wiring

/-!
The wiring as text: a line of counts, a line for each joint and a line for each wire.
-/

namespace GraphSplice

def Provenance.label (p : Provenance) : String := ruleLabel p.rule ++ "#" ++ toString p.element

/-- The spelling with the names of the fields. -/
def Provenance.text (p : Provenance) : String :=
  "Provenance \x7b rule: " ++ p.rule.text ++ ", local: " ++ toString p.element ++
    ", application: " ++ toString p.application ++ " \x7d"

def NodeOrigin.text : NodeOrigin → String
  | .host v => "host vertex " ++ toString v.slot
  | .created p => "new vertex " ++ p.label ++ " (application " ++ toString p.application ++ ")"

def SocketOrigin.text : SocketOrigin → String
  | .host e side => "port of host edge " ++ toString e.slot ++ " end " ++ toString side.toNat
  | .fresh => "fresh port"

def JointKind.text : JointKind → String
  | .node origin => origin.text
  | .socket origin => origin.text

def Wire.text (wire : Wire) : String :=
  let first := "v" ++ toString wire.ends.first
  let second := "v" ++ toString wire.ends.second
  match wire.kind with
  | .attachment => first ++ " -- " ++ second
  | .link (.host e) => first ++ " == " ++ second ++ " (host edge " ++ toString e.slot ++ ")"
  | .link (.created p) => first ++ " == " ++ second ++ " (new edge " ++ p.label ++ ")"

namespace Wiring

/-- The elements of an arena that are still there, with their positions. -/
def live {α : Type} (cells : Array (Option α)) : List (Nat × α) :=
  cells.toList.zipIdx.filterMap fun c => c.1.map (c.2, ·)

def liveJoints (w : Wiring) : List (JointId × Joint) := live w.joints

def liveWires (w : Wiring) : List (WireId × Wire) := live w.wires

def header (w : Wiring) : String :=
  let sockets := w.liveJoints.countP (·.2.kind.isSocket)
  let nodes := w.liveJoints.length - sockets
  "pregraph: " ++ toString nodes ++ " nodes, " ++ toString sockets ++ " ports, " ++
    toString w.liveWires.length ++ " edges"

def lines (w : Wiring) : List String :=
  w.header ::
    (w.liveJoints.map fun j => "  v" ++ toString j.1 ++ ": " ++ j.2.kind.text) ++
    w.liveWires.map fun e => "  e" ++ toString e.1 ++ ": " ++ e.2.text

def text (w : Wiring) : String := String.join (w.lines.map (· ++ "\n"))

end Wiring

end GraphSplice
