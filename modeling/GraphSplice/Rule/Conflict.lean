import GraphSplice.Combination
import GraphSplice.Rule

/-!
Conflicts between rules. A rule is in conflict with a cutter when a part of its pattern embeds
into the pattern of the cutter, tags kept, so that something it keeps falls on something the
cutter cuts: an application of the cutter may then spoil an occurrence of the rule. The relation
is directed.
-/

namespace GraphSplice

/-- The rule `victim` relies on elements that `cutter` may delete. -/
structure Conflict where
  victim : RuleId
  cutter : RuleId
  deriving DecidableEq, Repr

namespace Conflict

instance : LT Conflict :=
  ⟨fun a b => a.victim < b.victim ∨ (a.victim = b.victim ∧ a.cutter < b.cutter)⟩

instance : DecidableLT Conflict := fun a b =>
  inferInstanceAs (Decidable (a.victim < b.victim ∨ (a.victim = b.victim ∧ a.cutter < b.cutter)))

end Conflict

namespace Rule

variable {D : Domain}

def vertexRole? (r : Rule D) (i : Nat) : Option Role := (r.vertices[i]?).map (·.fate.role)

def edgeRole? (r : Rule D) (j : Nat) : Option Role := (r.edges[j]?).map (·.fate.role)

def vertexTag? (r : Rule D) (i : Nat) : Option Tag := (r.vertices[i]?).map (·.tag)

def edgeTag? (r : Rule D) (j : Nat) : Option Tag := (r.edges[j]?).map (·.tag)

/-- Something in the part is kept, so that a cut can spoil it. -/
def reliesOn (r : Rule D) (part : List Nat) : Bool :=
  part.any (r.vertexRole? · = some .kept) ||
    (r.pattern.inducedOrigins part).any (r.edgeRole? · = some .kept)

/-- An embedding of the part sends a kept element of `victim` to a cut element of `cutter`. -/
def hits (victim cutter : Rule D) (part : List Nat) (m : Embedding) : Bool :=
  (part.zip m.vertices).any (fun x =>
    victim.vertexRole? x.1 = some .kept ∧ cutter.vertexRole? x.2 = some .cut) ||
  ((victim.pattern.inducedOrigins part).zip m.edges).any fun x =>
    victim.edgeRole? x.1 = some .kept ∧ cutter.edgeRole? x.2 = some .cut

/-- Compares tags and stops at the first embedding that hits. -/
def overlapGuide (victim cutter : Rule D) (part : List Nat) : Guide Unit where
  vertex i t _ := (part[i]?.bind victim.vertexTag? = cutter.vertexTag? t, ())
  edge j t _ :=
    ((victim.pattern.inducedOrigins part)[j]?.bind victim.edgeTag? = cutter.edgeTag? t, ())
  visit m _ := (if victim.hits cutter part m then .done else .more, ())

def overlapHits (victim cutter : Rule D) (part : List Nat) : Bool :=
  let guide := victim.overlapGuide cutter part
  (Search.run guide (victim.pattern.induced part) cutter.pattern.asTarget ()).1 = .done

/-- Stops at a part that falls on something that `cutter` cuts, and takes note of it. -/
def seekSpoiled (victim cutter : Rule D) (part : List Nat) (found : Bool) : Flow × Bool :=
  if victim.reliesOn part && victim.overlapHits cutter part then (.done, true) else (.more, found)

/-- Some part of `count` vertices of `victim` falls on something that `cutter` cuts. -/
def spoiled (victim cutter : Rule D) (count : Nat) : Bool :=
  match Combination.forEach victim.vertices.length count (victim.seekSpoiled cutter) false with
  | .ok (_, found) => found
  -- No position of an enumeration is out of range.
  | .error _ => false

/-- What `victim` relies on can be deleted by `cutter`. Large parts are tried first. -/
def conflicts (victim cutter : Rule D) : Bool :=
  (victim.deletes || cutter.deletes) && !cutter.vertices.isEmpty &&
    (List.range victim.vertices.length).reverse.any fun k => victim.spoiled cutter (k + 1)

end Rule

end GraphSplice
