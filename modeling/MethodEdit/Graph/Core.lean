import MethodEdit.Graph.Basic
import MethodEdit.Types.Assignable

/-!
The types that editing itself needs to know: those of constants, of conditions, and the root of all
classes. A graph that already declares one of the names keeps its own declaration.
-/
namespace MethodEdit

structure CoreTypes where
  object : Ty
  valueType : Ty
  void : Ty
  boolean : Ty
  int32 : Ty
  int64 : Ty
  float32 : Ty
  float64 : Ty
  string : Ty

namespace CoreTypes

def toList (core : CoreTypes) : List Ty :=
  [core.object, core.valueType, core.void, core.boolean, core.int32, core.int64, core.float32,
    core.float64, core.string]

end CoreTypes

namespace Graph

def addCoreTypes (g : Graph) : CoreTypes × Graph :=
  let (object, g) := g.addType (.named Ty.rootName .classType none [])
  let (valueType, g) := g.addType (.named "System.ValueType" .classType (some object) [])
  let value (name : String) : Ty := .named name .valueType (some valueType) []
  let (void, g) := g.addType (.named "System.Void" .voidType none [])
  let (boolean, g) := g.addType (value "System.Boolean")
  let (int32, g) := g.addType (value "System.Int32")
  let (int64, g) := g.addType (value "System.Int64")
  let (float32, g) := g.addType (value "System.Single")
  let (float64, g) := g.addType (value "System.Double")
  let (string, g) := g.addType (.named "System.String" .classType (some object) [])
  ({ object, valueType, void, boolean, int32, int64, float32, float64, string }, g)

end Graph

end MethodEdit
