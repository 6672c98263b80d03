import Luaml.Lib.Path

/-! `src/stdlib/path.rs`: paths from their texts alone.  A text that Lua passes is UTF-8, so
`path_to_string` gives the text of the path. -/

namespace Luaml

open Rust

namespace Paths

def normalizeStep (out : List Component) : Component → List Component
  | .curDir => out
  | .parentDir =>
    match out with
    | .normal _ :: out => out
    | .rootDir :: _ => out
    | _ => .parentDir :: out
  | other => other :: out

def normalizeLexical (p : PathBuf) : PathBuf :=
  let out := (p.components.foldl normalizeStep []).reverse
  if out = [] then ⟨['.']⟩ else PathBuf.extend ⟨[]⟩ out

def shared : List Component → List Component → Nat
  | a :: fromParts, b :: toParts => if a = b then shared fromParts toParts + 1 else 0
  | _, _ => 0

def relativeLexical (fromPath toPath : PathBuf) : PathBuf :=
  let fromParts := fromPath.components
  let toParts := toPath.components
  let n := shared fromParts toParts
  let out := PathBuf.extend ⟨[]⟩ (List.replicate (fromParts.length - n) .parentDir)
  let out := out.extend (toParts.drop n)
  if out.text = [] then out.join ['.'] else out

def join : List Str → Str
  | [] => []
  | arg :: args => (args.foldl PathBuf.join ⟨arg⟩).text

def normalize (p : Str) : Str := (normalizeLexical ⟨p⟩).text

def relative (fromPath toPath : Str) : Str :=
  let fromN := normalizeLexical ⟨fromPath⟩
  let toN := normalizeLexical ⟨toPath⟩
  if fromN.isAbsolute != toN.isAbsolute then toN.text else (relativeLexical fromN toN).text

def isAbsolute (p : Str) : Bool := PathBuf.isAbsolute ⟨p⟩

end Paths

end Luaml
