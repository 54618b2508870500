import LiveTree.Connection
import LiveTree.Frame.Field

/-!
Why a session could not do what it was asked to, and how requests end that have no answer.
-/

namespace LiveTree

inductive SessionError where
  | link (message : String) (retryable : Bool)
  | frame (error : FrameError)
  | path (error : PathError)
  | snapshot (error : CodecError)
  | rejected (status : String) (message : Option String)
  | badTransition (source target : Phase)
  | unknownHandle (handle : Nat)
  | tooManyPending (limit : Nat)
  | notConnected
  /-- The request was given up before its answer came. -/
  | cancelled
deriving DecidableEq, Repr

namespace SessionError

def message : SessionError → String
  | link message _ => "transport error: " ++ message
  | frame error => "protocol error: " ++ error.message
  | path error => "core error: " ++ error.message
  | snapshot error => "core error: snapshot codec error: " ++ error.message
  | rejected status _ => "server rejected request: " ++ status
  | badTransition source target =>
    "invalid state transition from " ++ source.name ++ " to " ++ target.name
  | unknownHandle handle => "unknown subscription handle " ++ toString handle
  | tooManyPending limit => "too many pending requests (limit " ++ toString limit ++ ")"
  | notConnected => "not connected to server"
  | cancelled => "session closed"

def isRetryable : SessionError → Bool
  | link _ retryable => retryable
  | notConnected => true
  | _ => false

end SessionError

end LiveTree
