import GraphSplice.Wiring.Components
import GraphSplice.Wiring.Forest

/-!
Reconciliation of applications that touch one connection point. Sockets of a component on the
same side stand for one connection point and are merged into the lowest of them, which is sound
only if no component has an odd cycle. Nodes that then share a socket are merged into the lowest
of them, so a host node absorbs created ones.
-/

namespace GraphSplice.Wiring

def Adjacent (w : Wiring) (a b : JointId) : Prop := ∃ e ∈ w.incident a, w.opposite? e a = some b

instance (w : Wiring) (a b : JointId) : Decidable (w.Adjacent a b) :=
  inferInstanceAs (Decidable (∃ e ∈ w.incident a, _))

/-- Moves the end of a wire from one joint to another. -/
def moveWire (w : Wiring) (e : WireId) (source target : JointId) : Wiring :=
  let moved := w.wires.modify e (·.map fun wire =>
    { wire with ends := wire.ends.map fun j => if j = source then target else j })
  ({ w with wires := moved }.unlistWire source e).listWire target e

/-- Gives a wire of a merged member to the representative, or drops it where it would repeat a
wire of the representative or join it to itself. -/
def inherit (rep : JointId) (members : List JointId) (member : JointId) (w : Wiring)
    (e : WireId) : Wiring :=
  match w.opposite? e member with
  | none => w
  | some other =>
    if other = rep ∨ other ∈ members ∨ w.Adjacent rep other then w.removeWire e
    else w.moveWire e member rep

/-- Merges one member into the representative. -/
def absorb (rep : JointId) (members : List JointId) (w : Wiring) (member : JointId) : Wiring :=
  if member = rep ∨ ¬ w.IsLive member then w
  else ((w.incident member).foldl (inherit rep members member) w).removeJoint member

/-- Merges all members into the representative. -/
def contract (w : Wiring) (rep : JointId) (members : List JointId) : Wiring :=
  members.foldl (absorb rep members) w

/-! ## Sockets -/

/-- The groups of sockets to be merged, component by component. -/
def socketClasses (components : List Component) : List (List JointId) :=
  components.flatMap fun c => [c.onSide .first, c.onSide .second]

/-- Merges one group into its lowest member and counts the members folded away. -/
def mergeClass (state : Wiring × Nat) (members : List JointId) : Wiring × Nat :=
  match members.min? with
  | none => state
  | some rep => (state.1.contract rep members, state.2 + (members.length - 1))

/-- Merges the sockets of each component side by side. With `checkParity` the first component
with an odd cycle is returned instead; without it, its sides are those of the walk. The number
counts the sockets folded away. -/
def mergeSockets (w : Wiring) (checkParity : Bool) : Except Component (Wiring × Nat) :=
  let components := w.components
  match components.find? fun c => checkParity && c.odd with
  | some c => .error c
  | none => .ok ((socketClasses components).foldl mergeClass (w, 0))

/-! ## Nodes -/

/-- Joins the nodes that a socket hangs off. -/
def joinAttached (w : Wiring) (f : Forest) (socket : JointId) : Forest :=
  match w.attachedNodes socket with
  | [] => f
  | first :: rest => rest.foldl (fun f other => f.join first other) f

/-- Nodes are in one tree when a chain of shared sockets connects them. -/
def nodeForest (w : Wiring) : Forest :=
  w.liveSockets.foldl w.joinAttached (Forest.singletons w.joints.size)

/-- Merges the nodes that share a socket, and counts those folded away. -/
def mergeNodes (w : Wiring) : Wiring × Nat :=
  let classes := w.nodeForest.classes
  (classes.foldl (fun w c => w.contract c.1 c.2) w, (classes.flatMap (·.2)).length)

/-! ## Dangling sockets -/

/-- The sockets without a link: their edge is gone on that side. -/
def dangling (w : Wiring) : List JointId := w.liveSockets.filter fun j => (w.links j).isEmpty

def prune (w : Wiring) : Wiring × Nat :=
  (w.dangling.foldl (fun w j => w.removeJoint j) w, w.dangling.length)

end GraphSplice.Wiring
