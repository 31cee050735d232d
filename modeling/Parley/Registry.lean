import Parley.Document.Resolve
import Parley.Log
import Parley.Login
import Parley.Native.Function
import Parley.Sketch

/-!
# The registry of served functions

A registry collects the interface documents that were loaded, the type mappings that were declared
and the native functions that were registered under them. A function is admitted when its name is
declared, its arity is the declared one and every path of its mapping leads somewhere in its types.

* `Registered` : a native function with its mapping and encoding.
* `Registry` : documents, mappings and functions.
* `Registry.load`, `Registry.define`, `Registry.register`, `Registry.unregister` : changes; the
  first and the third yield what they log.
-/

namespace Parley

/-- A native function and the encoding its mapping had when it was registered. -/
structure Registered (ι : Type) where
  native : NativeFunction ι
  mapping : String
  encoding : FunctionEncoding

/-- What a party can serve. -/
structure Registry (ι : Type) where
  library : Library
  loaded : List String
  document : Document
  mappings : Mappings
  functions : List (String × Registered ι)

namespace Registry

variable {ι : Type}

/-- A registry over a library, with the built-in mapping and nothing else. -/
def ofLibrary (library : Library) : Registry ι :=
  ⟨library, [], .empty, .builtin, []⟩

/-- A registry that has only what is built in. -/
def builtin : Registry ι :=
  ofLibrary .builtin

/-- Merges the document at an address; one that was loaded before is not loaded again. -/
def load (r : Registry ι) (uri : String) : Except Error (Registry ι × List LogRecord) :=
  if r.loaded.contains uri then .ok (r, [])
  else do
    let d ← r.library.load uri
    let record : LogRecord := ⟨.debug, "loaded IDL",
      [("uri", .text uri), ("types", .number d.types.length),
       ("services", .number d.services.length)]⟩
    return ({ r with document := r.document.merge d, loaded := uri :: r.loaded }, [record])

/-- Declares a type mapping. -/
def define (r : Registry ι) (id : String) (mapping : TypeMapping) : Registry ι :=
  { r with mappings := r.mappings.define id mapping }

/-- The encoding of a mapping. -/
def encoding (r : Registry ι) (id : String) : Except Error FunctionEncoding :=
  r.mappings.compile id

/-- The declaration of a function by its qualified name. -/
def declaration (r : Registry ι) (name : String) : Except Error Signature :=
  match r.document.function? name with
  | some (_, signature) => .ok signature
  | none => .error (.unknownFunction name)

/-- A registered function. -/
def function? (r : Registry ι) (name : String) : Option (Registered ι) :=
  Table.find? name r.functions

/-- The entries of an argument list by the parameter they are about; each must be one of `count`. -/
def byParameter (mapping name : String) (count : Nat) (args : List Encoding) :
    Except Error (List (Nat × Encoding)) :=
  args.mapM fun e => do
    let (i, own) ← e.splitParameter
    if i < count then return (i, own)
    throw (.unknownParameter mapping name i)

/-- Checks that every path of an encoding leads somewhere in the types of a function. -/
def checkPaths (mapping name : String) (native : NativeFunction ι)
    (encoding : FunctionEncoding) :
    Except Error Unit := do
  let entries ← byParameter mapping name native.domain.length encoding.args
  native.domain.zipIdx.forM fun (t, i) =>
    discard (Sketch.ofEncoding ((entries.filter (·.1 = i)).map Prod.snd) t)
  discard (Sketch.ofEncoding encoding.result native.range)

/-- Registers a native function under a declared name. -/
def register (r : Registry ι) (name : String) (native : NativeFunction ι) (mapping : String) :
    Except Error (Registry ι × List LogRecord) := do
  let declared := (← r.declaration name).params.length
  let encoding ← r.encoding mapping
  if native.domain.length ≠ declared then
    throw (.arity name declared native.domain.length)
  checkPaths mapping name native encoding
  let registered : LogRecord := ⟨.debug, "registered function",
    [("name", .text name), ("type_mapping", .text mapping)]⟩
  let replaced : LogRecord := ⟨.warn, "replaced previous registration", [("name", .text name)]⟩
  let records := if Table.contains name r.functions then [registered, replaced] else [registered]
  return ({ r with functions := Table.insert name ⟨native, mapping, encoding⟩ r.functions },
    records)

/-- Withdraws a registered function. -/
def unregister (r : Registry ι) (name : String) : Except Error (Registry ι) :=
  if Table.contains name r.functions then
    .ok { r with functions := Table.erase name r.functions }
  else .error (.unknownFunction name)

end Registry

end Parley
