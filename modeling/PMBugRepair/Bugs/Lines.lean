import PMBugRepair.Strings.Python
import PMBugRepair.Trace

/-!
# Bug files

`convert.py` and `convert4.py` write one candidate per line. A line names statements by their
scopes: the function, an underscore and the line of the source.
-/

namespace PMBugRepair

open Strings (Text lit)

/-- `"DURA:[ pt_"+s+"]"`. -/
def duraLine (s : Text) : Text := lit "DURA:[ pt_" ++ s ++ [']']

/-- `"MPB: [pt_"+s+"; pt_"+t+"]"`. -/
def mpbLine (s t : Text) : Text := lit "MPB: [pt_" ++ s ++ lit "; pt_" ++ t ++ [']']

/-- `"MPA: [pc_"+s+"; pc_"+t+"]"`. -/
def mpaLine (s t : Text) : Text := lit "MPA: [pc_" ++ s ++ lit "; pc_" ++ t ++ [']']

/-- A place in the source. Names have no white space and none of the marks of a line. -/
structure Site where
  function : Text
  line : Nat
  legal : ∀ c ∈ function, Strings.isSpace c = false ∧ c ∉ ['[', ']', ';']
  deriving DecidableEq

/-- `scope+"_"+line`. -/
def Site.scope (site : Site) : Text := site.function ++ '_' :: digits site.line

inductive BugLine where
  | dura (s : Site)
  | mpb (s t : Site)
  | mpa (s t : Site)
  deriving DecidableEq

def BugLine.text : BugLine → Text
  | .dura s => duraLine s.scope
  | .mpb s t => mpbLine s.scope t.scope
  | .mpa s t => mpaLine s.scope t.scope

/-- The loop that writes a file: `f.write(str(bug)+"\n")`. -/
def bugFile (bugs : List Text) : Text := bugs.flatMap fun bug => bug ++ ['\n']

/-- The lines of a bug file as they are read: `line.replace("\n", "").strip()`. -/
def bugLines (file : Text) : List Text :=
  (Strings.lines (Strings.universal file)).map fun line => Strings.strip (line.filter (· ≠ '\n'))

/-- Different unordered pairs of scopes. -/
def Apart (p q : Text × Text) : Prop := p ≠ q ∧ p ≠ q.swap

end PMBugRepair
