/-
The error codes of the network (network/error.h).

A function of the library reports a `boost_ec`: a code of its own category, or the code of
the call that failed.
-/
import Mathlib.Data.Int.Notation

/-- `eNetworkErrorCode`, without the two codes that are never made. -/
inductive NetworkErrorCode
  | ecConnecting
  | ecEstab
  | ecShutdown
  | ecHalf
  | ecTimeout
  | ecUrlParseError
  | ecDataParseError
  | ecUnsupportProtocol
  | ecRecvOverflow
  | ecSendOverflow
deriving DecidableEq, Repr

def NetworkErrorCode.value : NetworkErrorCode → ℤ
  | .ecConnecting => 1
  | .ecEstab => 2
  | .ecShutdown => 3
  | .ecHalf => 4
  | .ecTimeout => 6
  | .ecUrlParseError => 7
  | .ecDataParseError => 8
  | .ecUnsupportProtocol => 9
  | .ecRecvOverflow => 10
  | .ecSendOverflow => 11

inductive ErrorCategory
  | system
  | network
deriving DecidableEq, Repr

/-- `boost_ec`. -/
structure BoostEc where
  category : ErrorCategory := .system
  value : ℤ := 0
deriving DecidableEq, Repr

-- `boost_ec()`
def BoostEc.success : BoostEc := {}

-- `boost::asio::error::invalid_argument`, the `EINVAL` of the system
def BoostEc.invalidArgument : BoostEc := ⟨.system, 22⟩

-- the conversion to `bool`
def BoostEc.isError (ec : BoostEc) : Bool := decide (ec.value ≠ 0)

def makeNetworkErrorCode (code : NetworkErrorCode) : BoostEc := ⟨.network, code.value⟩
