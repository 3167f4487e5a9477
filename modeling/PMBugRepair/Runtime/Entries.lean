import PMBugRepair.Runtime.Log

/-!
# All lines of a log

Besides the events that the formatter reads, the runtime prints the functions that are entered and
left and the calls that only simulate an instruction.
-/

namespace PMBugRepair

open Strings (Text lit)

inductive Entry where
  | event (e : Event)
  | funcBegin (func : Text) (depth : BitVec 32)
  | funcEnd (func : Text) (depth : BitVec 32)
  | simuSfence
  | simuFlush (ptr : BitVec 64) (len : BitVec 64)
  | simuTXBegin
  | simuTXEnd
  | simuTXAdd (ptr : BitVec 64)
  deriving DecidableEq

def Entry.text : Entry → Text
  | .event e => e.text
  | .funcBegin func depth => lit "FUNC_BEGIN_1: " ++ func ++ ' ' :: digits depth.toNat ++ lit "; "
  | .funcEnd func depth => lit "FUNC_END: " ++ func ++ ' ' :: digits depth.toNat ++ lit "; "
  | .simuSfence => lit "Simulated F-E-N-C-E;"
  | .simuFlush ptr len =>
      lit "Simulated F-L-U-S-H: " ++ pointer ptr ++ lit " LEN: " ++ decimal len.toInt ++ lit "; "
  | .simuTXBegin => lit "TX_BEGIN; "
  | .simuTXEnd => lit "TX_END; "
  | .simuTXAdd ptr => lit "TX_ADD: " ++ pointer ptr ++ lit "; "

/-- `my_printf`. -/
def entryLine (tid : BitVec 64) (entry : Entry) : Text :=
  entry.text.take 1023 ++ lit "<Thread ID:" ++ digits tid.toNat ++ lit ">\n"

theorem entryLine_event (tid : BitVec 64) (event : Event) :
    entryLine tid (.event event) = logLine tid event := rfl

end PMBugRepair
