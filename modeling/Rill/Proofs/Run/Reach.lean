import Rill.World

/-!
# What a run can get hold of

Values hide in the bindings of the scopes, in arrays and hashes, and behind the scopes of functions
and modules. `World.Reaches` says what can be got at from some roots, step by step.
-/

namespace Rill

/-- What a run can get hold of: a scope or a value. -/
inductive Item where
  /-- A scope. -/
  | scope (id : ScopeId)
  /-- A value. -/
  | value (value : Value)

namespace World

/-- What can be got at from some roots: scopes lead outwards and to what is bound in them, arrays
and hashes to their parts, functions and modules to their scopes. -/
inductive Reaches (w : World) (roots : Item → Prop) : Item → Prop where
  | root {i : Item} (h : roots i) : Reaches w roots i
  | outer {s o : ScopeId} (h : Reaches w roots (.scope s)) (houter : w.scopes.outer? s = some o) :
      Reaches w roots (.scope o)
  | stored {s : ScopeId} {name : Bytes} {v : Value} (h : Reaches w roots (.scope s))
      (hv : w.scopes.stored? name s = some v) : Reaches w roots (.value v)
  | owned {s : ScopeId} {name : Bytes} {v : Value} (h : Reaches w roots (.scope s))
      (hv : w.scopes.owned? name s = some v) : Reaches w roots (.value v)
  | element {stamp : Stamp} {elements : List Value} {v : Value}
      (h : Reaches w roots (.value (.array stamp elements))) (hv : v ∈ elements) :
      Reaches w roots (.value v)
  | key {stamp : Stamp} {entries : Entries} {e : Key × Value × Value}
      (h : Reaches w roots (.value (.hash stamp entries))) (he : e ∈ entries.pairs) :
      Reaches w roots (.value e.2.1)
  | entry {stamp : Stamp} {entries : Entries} {e : Key × Value × Value}
      (h : Reaches w roots (.value (.hash stamp entries))) (he : e ∈ entries.pairs) :
      Reaches w roots (.value e.2.2)
  | module {name path : Bytes} {s : ScopeId} (h : Reaches w roots (.value (.module name path s))) :
      Reaches w roots (.scope s)
  | function {stamp : Stamp} {parameters : List Name} {body : Block} {s : ScopeId}
      (h : Reaches w roots (.value (.function stamp parameters body s))) :
        Reaches w roots (.scope s)
  | carried {stamp : Stamp} {v : Value} (h : Reaches w roots (.value (.returned stamp v))) :
      Reaches w roots (.value v)

end World

end Rill
