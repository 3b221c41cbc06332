import Florin.Config
import Florin.FileTree.Basic

/-! # Configuration files -/
namespace Florin

inductive LoadError where
  | read (p : Path) (cause : FileError)
  | invalid (p : Path) (fault : Document.Fault)
  deriving DecidableEq, Repr

def LoadError.message : LoadError → String
  | .read p _ => "failed to read config " ++ p.toString
  | .invalid p _ => "invalid config " ++ p.toString

def Config.load (t : FileTree) (p : Path) : Except LoadError Config :=
  match t.text p with
  | .error e => .error (.read p e)
  | .ok text =>
    match Config.read text with
    | .error f => .error (.invalid p f)
    | .ok c => .ok c

end Florin
