import LuaLint.Yaml.Node
import LuaLint.Library.Basic

/-!
# Encoding libraries

A library written as a document that decodes to it again. Fields are written under their dotted
names, so that a nested field is never taken for a key with a meaning of its own.
-/

namespace LuaLint

def Yaml.entry (key : Bytes) (value : Yaml.Node) : Yaml.Node × Yaml.Node := (.text key, value)

def Yaml.texts (texts : List Bytes) : Yaml.Node := .sequence 0 true (texts.map .text)

def Argument.node (a : Argument) : Yaml.Node :=
  let required := match a.requirement with
    | .optional => [Yaml.entry "required" (.truth false)]
    | .required reason => if reason.isEmpty then [] else [Yaml.entry "required" (.text reason)]
  let type := match a.type with
    | .constant values => Yaml.texts values
    | .display label => .mapping 0 [Yaml.entry "display" (.text label)]
    | t => .text t.label
  let observes := match a.observes with
    | .readWrite => []
    | o => [Yaml.entry "observes" (.text o.label)]
  .mapping 0 (required ++ [Yaml.entry "type" type] ++ observes)

def FieldShape.entries : FieldShape → List (Yaml.Node × Yaml.Node)
  | .table => []
  | .any => [Yaml.entry "any" (.truth true)]
  | .removed => [Yaml.entry "removed" (.truth true)]
  | .property w => [Yaml.entry "property" (.text w.label)]
  | .struct name => [Yaml.entry "struct" (.text name)]
  | .function f =>
    (if f.method then [Yaml.entry "method" (.truth true)] else []) ++
      (if f.mustUse then [Yaml.entry "must_use" (.truth true)] else []) ++
      [Yaml.entry "args" (.sequence 0 false (f.args.map Argument.node))]

def Deprecation.node (d : Deprecation) : Yaml.Node :=
  .mapping 0 (Yaml.entry "message" (.text d.message) ::
    if d.replace.isEmpty then [] else [Yaml.entry "replace" (Yaml.texts d.replace)])

/-- The description of a field without its nested fields. A table that is described by its nested
fields alone has none. -/
def Field.descriptor? (f : Field) : Option Yaml.Node :=
  let entries := f.shape.entries ++
    (f.deprecated.toList.map fun d => Yaml.entry "deprecated" d.node) ++
    if f.description.isEmpty then [] else [Yaml.entry "description" (.text f.description)]
  if entries.isEmpty then none else some (.mapping 0 entries)

mutual

def Field.flatten (path : Bytes) : Field → List (Yaml.Node × Yaml.Node)
  | .mk shape deprecated description children =>
    ((Field.mk shape deprecated description children).descriptor?.toList.map fun n =>
      Yaml.entry path n) ++ Field.flattenAll path children

def Field.flattenAll (path : Bytes) : List (Bytes × Field) → List (Yaml.Node × Yaml.Node)
  | [] => []
  | (name, f) :: rest =>
    f.flatten (if path.isEmpty then name else path ++ "." ++ name) ++ Field.flattenAll path rest

end

def Library.node (lib : Library) : Yaml.Node :=
  .mapping 0 <|
    (if lib.name.isEmpty then [] else [Yaml.entry "name" (.text lib.name)]) ++
    (if lib.base.isEmpty then [] else [Yaml.entry "base" (.text lib.base)]) ++
    [Yaml.entry "globals" (.mapping 0 (Field.flattenAll [] lib.globals))] ++
    if lib.structs.isEmpty then []
    else [Yaml.entry "structs" (.mapping 0 (lib.structs.map fun table =>
      Yaml.entry table.1 (.mapping 0 (Field.flattenAll [] table.2.children))))]

end LuaLint
