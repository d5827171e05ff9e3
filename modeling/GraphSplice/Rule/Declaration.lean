import GraphSplice.Event
import GraphSplice.Rule.Draft

/-!
Declarations as data. A draft takes a sequence of declarations one after the other; one that is
refused leaves it as it was, and the next one is taken up.
-/

namespace GraphSplice

inductive Declaration (D : Domain) where
  | named (name : String)
  | keepVertex (tag : Tag)
  | cutVertex (tag : Tag)
  | addVertex (tag : Tag)
  | keepEdge (a b : Nat) (tag : Tag)
  | cutEdge (a b : Nat) (tag : Tag)
  | addEdge (a b : Nat) (socketA socketB : Option Nat) (tag : Tag)
  | checkVertex (vertex : Nat) (check : VertexCheck D)
  | checkEdge (edge : Nat) (check : EdgeCheck D)
  | onRemoveVertex (vertex : Nat) (removal : VertexRemoval D)
  | onRemoveEdge (edge : Nat) (removal : EdgeRemoval D)
  | onCreateVertex (vertex : Nat) (creation : VertexCreation D)
  | onCreateEdge (edge : Nat) (creation : EdgeCreation D)

/-- What a declaration comes to: the draft after it, the number it gave to a new element, if any,
and the events on the way. -/
structure Declared (D : Domain) where
  draft : Draft D
  result : Except DraftError (Option Nat)
  events : List Event

namespace Declared

variable {D : Domain}

def accepted (d : Draft D) (number : Option Nat) : Declared D := ⟨d, .ok number, []⟩

def ofEdge (before : Draft D) (connection : Connection) (after : Except DraftError (Draft D)) :
    Declared D :=
  match after with
  | .ok d => accepted d (some before.nextEdge)
  | .error e => ⟨before, .error e, [.connectionRefused connection e.message]⟩

def ofCallback (before : Draft D) (after : Except DraftError (Draft D)) : Declared D :=
  match after with
  | .ok d => accepted d none
  | .error e => ⟨before, .error e, []⟩

theorem draft_ofEdge {before : Draft D} {connection : Connection}
    {after : Except DraftError (Draft D)} {e : DraftError}
    (h : (ofEdge before connection after).result = .error e) :
    (ofEdge before connection after).draft = before := by
  cases after with
  | error => rfl
  | ok d => cases h

theorem draft_ofCallback {before : Draft D} {after : Except DraftError (Draft D)} {e : DraftError}
    (h : (ofCallback before after).result = .error e) :
    (ofCallback before after).draft = before := by
  cases after with
  | error => rfl
  | ok d => cases h

end Declared

namespace Draft

variable {D : Domain}

def declare (d : Draft D) : Declaration D → Declared D
  | .named name => .accepted (d.named name) none
  | .keepVertex tag => .accepted (d.keepVertex tag) (some d.nextVertex)
  | .cutVertex tag => .accepted (d.cutVertex tag) (some d.nextVertex)
  | .addVertex tag => .accepted (d.addVertex tag) (some d.nextVertex)
  | .keepEdge a b tag => .ofEdge d .kept (d.keepEdge a b tag)
  | .cutEdge a b tag => .ofEdge d .cut (d.cutEdge a b tag)
  | .addEdge a b socketA socketB tag => .ofEdge d .added (d.addEdge a b socketA socketB tag)
  | .checkVertex vertex check => .ofCallback d (d.checkVertex vertex check)
  | .checkEdge edge check => .ofCallback d (d.checkEdge edge check)
  | .onRemoveVertex vertex removal => .ofCallback d (d.onRemoveVertex vertex removal)
  | .onRemoveEdge edge removal => .ofCallback d (d.onRemoveEdge edge removal)
  | .onCreateVertex vertex creation => .ofCallback d (d.onCreateVertex vertex creation)
  | .onCreateEdge edge creation => .ofCallback d (d.onCreateEdge edge creation)

/-- The draft that a sequence of declarations leaves. -/
def declareAll (d : Draft D) (declarations : List (Declaration D)) : Draft D :=
  declarations.foldl (fun d x => (d.declare x).draft) d

/-- A refused declaration leaves the draft as it was. -/
theorem draft_declare_of_error {d : Draft D} {x : Declaration D} {e : DraftError}
    (h : (d.declare x).result = .error e) : (d.declare x).draft = d := by
  cases x with
  | named | keepVertex | cutVertex | addVertex => cases h
  | keepEdge | cutEdge | addEdge => exact Declared.draft_ofEdge h
  | checkVertex | checkEdge | onRemoveVertex | onRemoveEdge | onCreateVertex | onCreateEdge =>
    exact Declared.draft_ofCallback h

end Draft

end GraphSplice
