import Mathlib

/-! The chain's shared vocabulary: account names, producer keys and schedules, block
timestamps, the constants of `config.hpp` that the modelled code reads, and the
exceptions it throws. -/

namespace Fio.Chain

/-- `account_name`: twelve 5-bit symbols and one 4-bit symbol packed into 64 bits, compared
by value. -/
structure Name where
  value : UInt64
  deriving DecidableEq, Repr, Inhabited

/-- `public_key_type`, opaque to the modelled code. -/
structure PublicKey where
  data : Nat
  deriving DecidableEq, Repr, Inhabited

/-- `producer_key`. -/
structure ProducerKey where
  producerName : Name
  blockSigningKey : PublicKey
  deriving DecidableEq, Repr

/-- `producer_schedule_type`. The version is a counter; the model does not wrap it. -/
structure ProducerSchedule where
  version : Nat
  producers : List ProducerKey
  deriving DecidableEq, Repr

/-- The producer names of a schedule, in schedule order. -/
def ProducerSchedule.names (schedule : ProducerSchedule) : List Name :=
  schedule.producers.map ProducerKey.producerName

/-- `block_timestamp_type`: a count of half-second slots. -/
structure BlockTimestamp where
  slot : Nat
  deriving DecidableEq, Repr

namespace Config

def producerRepetitions : Nat := 12

def maxProducers : Nat := 125

def maximumTrackedDposConfirmations : Nat := 1024

/-- `N(eosio)`. -/
def systemAccountName : Name := ⟨6138663577826885632⟩

end Config

/-- The exceptions thrown by the modelled code, by their C++ types, with their messages. -/
inductive Exception where
  | forkDatabaseException (message : String)
  | unlinkableBlockException (message : String)
  | forkDbBlockNotFound (message : String)
  | blockValidateException (message : String)
  | producerDoubleConfirm (message : String)
  | wrongProducer (message : String)
  | producerScheduleException (message : String)
  | rateLimitingStateInconsistent (message : String)
  | unsatisfiedAuthorization (message : String)
  | txIrrelevantSig (message : String)
  | nameTypeException (message : String)
  | symbolTypeException (message : String)
  | assetTypeException (message : String)
  | invalidTypeInsideAbi (message : String)
  | unpackException (message : String)
  | packException (message : String)
  | abiException (message : String)
  | abiRecursionDepthException (message : String)
  | invalidTablePayer (message : String)
  | tableAccessViolation (message : String)
  | tableNotInCache (message : String)
  | invalidTableIterator (message : String)
  | tableOperationNotPermitted (message : String)
  | subjectiveBlockProductionException (message : String)
  | missingAuthException (message : String)
  | protocolFeatureException (message : String)
  | blockLogAppendFail (message : String)
  | actionValidateException (message : String)
  | txCpuUsageExceeded (message : String)
  | txNetUsageExceeded (message : String)
  | blockResourceExhausted (message : String)
  | resourceLimitException (message : String)
  /-- `fc::bad_cast_exception`: an `fc::variant` read as a kind it does not hold. -/
  | badCastException
  /-- `fc::out_of_range_exception`: a read past the end of an `fc::datastream`. -/
  | outOfRangeException
  /-- `FC_ASSERT` in `fc`. -/
  | assertException
  /-- `boost::bad_lexical_cast` out of `fc::to_int64`. -/
  | badLexicalCast
  /-- The range checks of `fc::safe`. -/
  | overflowException
  | underflowException
  /-- chainbase's `get` of a key that no row has. -/
  | unknownKey
  /-- chainbase's `create` of a row whose unique key another row has. -/
  | uniquenessViolation
  /-- The `remove` queue of the fork database outgrew the index: an id was queued twice,
  and from there the C++ loop never ends. The model reports that instead of running
  forever. -/
  | nonTermination
  /-- `get_scheduled_producer` on an empty schedule takes a remainder modulo zero, which is
  undefined in C++. -/
  | emptySchedule
  deriving DecidableEq, Repr

end Fio.Chain
