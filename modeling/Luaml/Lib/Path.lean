import Luaml.Lib.Text

namespace Rust

structure PathBuf where
  text : Str
  deriving DecidableEq

inductive Component
  | rootDir | curDir | parentDir
  | normal (name : Str)
  deriving DecidableEq

def Component.asOsStr : Component → Str
  | .rootDir => ['/']
  | .curDir => ['.']
  | .parentDir => ['.', '.']
  | .normal s => s

namespace PathBuf

def innerComponents (parts : List Str) : List Component :=
  parts.filterMap fun s =>
    if s = [] ∨ s = ['.'] then none
    else if s = ['.', '.'] then some .parentDir
    else some (.normal s)

/-- Repeated separators and inner `.` components are dropped. -/
def components (p : PathBuf) : List Component :=
  match p.text.splitOn '/' with
  | [] :: parts => if p.text = [] then [] else .rootDir :: innerComponents parts
  | ['.'] :: parts => .curDir :: innerComponents parts
  | parts => innerComponents parts

/-- `a == b` -/
def same (a b : PathBuf) : Bool := a.components == b.components

def ofComponents (cs : List Component) : PathBuf :=
  ⟨match cs with
    | .rootDir :: cs => '/' :: Str.join ['/'] (cs.map name)
    | cs => Str.join ['/'] (cs.map name)⟩
where
  name : Component → Str
    | .rootDir => []
    | .curDir => ['.']
    | .parentDir => ['.', '.']
    | .normal s => s

def parent (p : PathBuf) : Option PathBuf :=
  match p.components.getLast? with
  | none | some .rootDir => none
  | some _ => some (ofComponents p.components.dropLast)

def join (p : PathBuf) (q : Str) : PathBuf :=
  if Str.startsWith q '/' ∨ p.text = [] then ⟨q⟩
  else if Str.endsWith p.text '/' then ⟨p.text ++ q⟩
  else ⟨p.text ++ '/' :: q⟩

def extend (p : PathBuf) (cs : List Component) : PathBuf := cs.foldl (fun p c => p.join c.asOsStr) p

def isAbsolute (p : PathBuf) : Bool := Str.startsWith p.text '/'

def fileName (p : PathBuf) : Option Str :=
  match p.components.getLast? with
  | some (.normal s) => some s
  | _ => none

def hasExtension (p : PathBuf) (ext : Str) : Bool :=
  match p.fileName with
  | some s => (('.' :: ext).isSuffixOf s) && decide (ext.length + 1 < s.length)
  | none => false

end PathBuf

end Rust
