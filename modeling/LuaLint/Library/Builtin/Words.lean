import LuaLint.Library.Basic

/-!
# Words for describing libraries

Short names with which the libraries that are always available are written down.
-/

namespace LuaLint.Library.Builtin

def need (type : ArgType) : Argument := ⟨.required [], type, .readWrite⟩

def may (type : ArgType) : Argument := ⟨.optional, type, .readWrite⟩

def needMore (reason : Bytes) : Argument := ⟨.required reason, .vararg, .readWrite⟩

/-- Further values, of which there may be none. -/
def more : Argument := may .vararg

def reads (a : Argument) : Argument := { a with observes := .read }

def writes (a : Argument) : Argument := { a with observes := .write }

def oneOf (values : List String) : ArgType := .constant (values.map Bytes.ofString)

def shown (label : Bytes) : ArgType := .display label

def fields (entries : List (String × Field)) : NameMap Field :=
  entries.map fun entry => (Bytes.ofString entry.1, entry.2)

def group (entries : List (String × Field)) : Field := .table (fields entries)

/-- A function whose result may be dropped. -/
def procedure (args : List Argument) : Field := .ofShape (.function ⟨args, false, false⟩)

/-- A function whose result must not be dropped. -/
def function (args : List Argument) : Field := .ofShape (.function ⟨args, false, true⟩)

/-- A function that is called with a colon and whose result may be dropped. -/
def method (args : List Argument) : Field := .ofShape (.function ⟨args, true, false⟩)

/-- A function that is called with a colon and whose result must not be dropped. -/
def query (args : List Argument) : Field := .ofShape (.function ⟨args, true, true⟩)

def value (w : Writability) : Field := .ofShape (.property w)

def shared (name : Bytes) : Field := .ofShape (.struct name)

def gone : Field := .ofShape .removed

/-- A field that should not be used any more. -/
def outdated (f : Field) (message : Bytes) (replace : List String) : Field :=
  .mk f.shape (some ⟨message, replace.map Bytes.ofString⟩) f.description f.children

end LuaLint.Library.Builtin
