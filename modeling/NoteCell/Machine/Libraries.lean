import NoteCell.Machine.Action

/-!
Libraries that programs import. Each is made when it is first asked for and shared from then on; the
one that talks to the host exists only where there is a host.
-/
namespace NoteCell.Libraries

def sysMembers : List (String × Value) :=
  [("stdout", .stream .stdout), ("stderr", .stream .stderr)]

def mathMembers : List (String × Value) :=
  [("pi", .float 3.141592653589793), ("e", .float 2.718281828459045),
    ("inf", .float (1.0 / 0.0)), ("sqrt", .builtin .sqrt), ("floor", .builtin .floor),
    ("ceil", .builtin .ceil)]

def hostMembers : List (String × Value) :=
  [("text", .builtin .hostText), ("image", .builtin .hostImage)]

def members? (hasHost : Bool) : String → Option (List (String × Value))
  | "sys" => some sysMembers
  | "math" => some mathMembers
  | "host" => if hasHost then some hostMembers else none
  | _ => none

-- The library of a name that is there already.
def loaded? (h : Heap) (name : String) : Option Value :=
  (h.libraries.findIdx? (·.name = name)).map .library

def load (name : String) : Action Value := do
  match loaded? (← .heap) name with
  | some l => return l
  | none =>
    match members? (← get).hasHost name with
    | some members => .newLibrary ⟨name, members⟩
    | none => .raise .moduleNotFound ("No module named '" ++ name ++ "'")

def memberOf (h : Heap) (l : Value) (libraryName name : String) : Attempt Value :=
  match l with
  | .library id =>
    match lookup? (h.library id).members name with
    | some v => return v
    | none =>
      .raise .importError ("cannot import name '" ++ name ++ "' from '" ++ libraryName ++ "'")
  | v => .typeError ("'" ++ h.typeName v ++ "' is not a module")

def bindingName (a : Alias) : String := a.asname.getD (dotted a.path)

-- `import a, b as c`
def importAll (scope : Nat) (names : List Alias) : Action Unit :=
  names.forM fun a => do
    let l ← load (dotted a.path)
    .bind scope (bindingName a) l

-- `from a import b, c as d`
def importMembers (scope : Nat) (path : List String) (names : List Alias) : Action Unit := do
  let libraryName := dotted path
  let l ← load libraryName
  names.forM fun a => do
    let v ← .look fun h => memberOf h l libraryName (dotted a.path)
    .bind scope (bindingName a) v

end NoteCell.Libraries
