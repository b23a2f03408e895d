import LinkCommittee.History.Duration

/-!
# Limits of the share history

The limits bound how many tokens are tracked, how many senders are heard for each of
them, how many entries a message may bring, and how long a token is tracked.
`HistoryLimits.new` accepts limits under which a pair of shares can come together;
limits read from a file are taken as they are.
-/

namespace LinkCommittee

/-- What is wrong with limits. -/
inductive LimitDefect where
  | noTokens
  | noPair
  | noShares
  | noTime
deriving DecidableEq

/-- The text of a refusal. -/
def LimitDefect.message (defect : LimitDefect) : String :=
  "An invalid parameter was provided: " ++ match defect with
    | noTokens => "`max_tokens` must be nonzero"
    | noPair => "`max_senders` must allow at least one pair"
    | noShares => "`max_shares_per_message` must be nonzero"
    | noTime => "`token_ttl` must be nonzero"

/-- Limits of the share history. -/
structure HistoryLimits where
  maxTokens : UInt64
  maxSenders : UInt64
  maxSharesPerMessage : UInt64
  lifetime : Option Duration
deriving DecidableEq

namespace HistoryLimits

/-- Limits that allow a pair of shares to come together. -/
def new (maxTokens maxSenders maxSharesPerMessage : UInt64) (lifetime : Option Duration) :
    Except LimitDefect HistoryLimits :=
  if maxTokens = 0 then .error .noTokens
  else if maxSenders < 2 then .error .noPair
  else if maxSharesPerMessage = 0 then .error .noShares
  else if lifetime = some Duration.zero then .error .noTime
  else .ok ⟨maxTokens, maxSenders, maxSharesPerMessage, lifetime⟩

/-- The limits of a member that sets none: a token is tracked for one day. -/
def standard : HistoryLimits := ⟨4096, 64, 64, some (Duration.ofSeconds 86400)⟩

end HistoryLimits

end LinkCommittee
