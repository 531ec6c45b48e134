import Fcvm.FleetCore.Duplicates

/-! A refused intent leaves the state as it was, apart from its record. -/

namespace Fcvm.FleetCore

open Std (ExtTreeMap ExtTreeSet)
open Library Library.Command

variable {p : Parts}

inductive WordFault where
  | noText
  | badStyle
  | control
  | empty
  | long (chars : ℕ)
  | tooSoon
  | unchecked
  | checkFailed
  | checkRefused
  | skyChanged

def WordFault.reason (intervalMs : ℕ) (check : String) : WordFault → String
  | .noText => "args.text must be a string"
  | .badStyle => "args.text_style must be one of " ++ TextStyle.names
  | .control => "text holds control characters"
  | .empty => "text is empty"
  | .long n => "text is " ++ toString n ++ " characters; the limit is " ++ toString MAX_WORD_CHARS
  | .tooSoon => "one word per " ++ toString (divCeil intervalMs 1000) ++ " s per client"
  | .unchecked => "the text check did not run"
  | .checkFailed => check
  | .checkRefused => "the text check refused it: " ++ check
  | .skyChanged => "the words in the sky changed while this one was checked; send it again"

variable {reason : String} {s s' : State p} {m : IntentMsg p}

variable (c : Config)

end Fcvm.FleetCore
