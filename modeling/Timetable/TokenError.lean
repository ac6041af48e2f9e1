import Timetable.Key
import Timetable.Resource.Text

/-!
# Errors of written tokens

Resources and keys are the two kinds of token that a file may hold. `TokenError` tells which of
them could not be read, and says so in front of the sentence of the error itself.
-/

namespace Timetable

/-- Why a token of either kind was refused. -/
inductive TokenError where
  | resource (error : Resource.TextError)
  | key (error : Key.NameError)
  deriving DecidableEq

def TokenError.message : TokenError → String
  | .resource error => "resource error: " ++ error.message
  | .key error => "classical key error: " ++ error.message

end Timetable
