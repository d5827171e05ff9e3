import GraphSplice.Grammar
import GraphSplice.Text.Quoted

/-!
Rules, drafts and grammars as text, for inspection.
-/

namespace GraphSplice

variable {D : Domain}

def quotedName (name : Option String) : String :=
  match name with
  | none => "None"
  | some s => "Some(" ++ Text.quoted s ++ ")"

def Draft.text (d : Draft D) : String :=
  "RuleBuilder \x7b name: " ++ quotedName d.name ++ ", nodes: " ++ toString d.vertices.size ++
    ", edges: " ++ toString d.edges.size ++ ", .. \x7d"

def Rule.text (r : Rule D) : String :=
  "Rule \x7b id: " ++ r.id.text ++ ", name: " ++ quotedName r.name ++ ", match_nodes: " ++
    toString r.vertices.length ++ ", new_nodes: " ++ toString r.addedVertices.length ++
    ", symmetric: " ++ toString r.isSymmetric ++ ", .. \x7d"

def Conflict.text (c : Conflict) : String :=
  "(" ++ c.victim.text ++ ", " ++ c.cutter.text ++ ")"

def Grammar.text (g : Grammar D) : String :=
  let list (items : List String) : String := ", ".intercalate items
  "RuleSystem \x7b rules: [" ++ list (g.rules.toList.map (·.text)) ++
    "], conflicts: ConflictSet(\x7b" ++ list (g.conflicts.map (·.text)) ++
    "\x7d), parity_armed: " ++ toString g.armed ++ ", config: " ++ g.settings.text ++ " \x7d"

end GraphSplice
