import LinkCommittee.History.Limits
import LinkCommittee.Message.ScanToken
import LinkCommittee.Message.ShareEntry

/-!
# The share history

The history tracks scan tokens within its limits.  It keeps a table of what is known of
each token, and beside it a queue of the tokens, the one whose tracking began first in
front, so that making room for a new token is taking from the front.  For each token it
holds the messages in the order of their arrival and the set of their senders, so that
each sender is heard once.

Every start of tracking is given a number of its own, the generation.  Whoever looked
at a token earlier can tell by the generation whether the token is still tracked
since then, or was dropped and has come back.
-/

namespace LinkCommittee

/-- What came of recording a message. -/
inductive RecordOutcome where
  | recorded
  | duplicateSender
  | senderLimitReached
deriving DecidableEq

/-- Whether a token has been matched since its tracking began. -/
inductive TokenState where
  | pending
  | matched
deriving DecidableEq

/-- The entries that one sender contributed. -/
structure SenderShares where
  sender : UInt64
  entries : List ShareEntry
deriving DecidableEq

/-- A token and what is known of it since its tracking began.  The senders heard are a set, kept as
a list without repetitions. -/
structure TrackedToken where
  token : ScanToken
  generation : UInt64
  senders : List UInt64
  messages : List SenderShares
  firstSeen : Nat
  state : TokenState
deriving DecidableEq

namespace TrackedToken

/-- A token whose tracking begins. -/
def start (token : ScanToken) (generation : UInt64) (now : Nat) : TrackedToken :=
  ⟨token, generation, [], [], now, .pending⟩

/-- Adds the message of a sender not heard before, while the limit allows. -/
def record (t : TrackedToken) (limit : Nat) (sender : UInt64) (entries : List ShareEntry) :
    RecordOutcome × TrackedToken :=
  if sender ∈ t.senders then (.duplicateSender, t)
  else if limit ≤ t.messages.length then (.senderLimitReached, t)
  else (.recorded, { t with
    senders := t.senders.insert sender
    messages := t.messages ++ [⟨sender, entries⟩] })

/-- Whether a token has been tracked for longer than a lifetime. -/
def expired (t : TrackedToken) (lifetime : Duration) (now : Nat) : Bool :=
  lifetime.toNanos < now - t.firstSeen

end TrackedToken

/-- A table of the tracked tokens, and the queue of these tokens, the one tracked longest first. -/
structure History where
  limits : HistoryLimits
  nextGeneration : UInt64
  tracked : List TrackedToken
  order : List ScanToken
deriving DecidableEq

namespace History

/-- The history that tracks no token. -/
def empty (limits : HistoryLimits) : History := ⟨limits, 0, [], []⟩

/-- The number of tracked tokens. -/
def size (h : History) : Nat := h.tracked.length

/-- What is known of a token, if it is tracked. -/
def find? (h : History) (token : ScanToken) : Option TrackedToken :=
  h.tracked.find? fun t => t.token = token

/-- Changes what is known of one token. -/
def update (h : History) (token : ScanToken) (f : TrackedToken → TrackedToken) : History :=
  { h with tracked := h.tracked.map fun t => if t.token = token then f t else t }

/-- Takes tokens from the front of a queue and drops them from the table, until the table holds
fewer than `limit` or the queue is empty. -/
def dropOldest (limit : Nat) :
    List ScanToken → List TrackedToken → List ScanToken × List TrackedToken
  | [], tracked => ([], tracked)
  | oldest :: order, tracked =>
    if limit ≤ tracked.length then
      dropOldest limit order (tracked.filter fun t => t.token ≠ oldest)
    else (oldest :: order, tracked)

@[simp] theorem dropOldest_nil (limit : Nat) (tracked : List TrackedToken) :
    dropOldest limit [] tracked = ([], tracked) := rfl

/-- Drops the tokens tracked longest until there is room for one more. -/
def makeRoom (h : History) : History :=
  let left := dropOldest h.limits.maxTokens.toNat h.order h.tracked
  { h with tracked := left.2, order := left.1 }

/-- Begins to track a token. -/
def track (h : History) (token : ScanToken) (now : Nat) : History :=
  let room := h.makeRoom
  { room with
    nextGeneration := h.nextGeneration + 1
    tracked := room.tracked ++ [.start token h.nextGeneration now]
    order := room.order ++ [token] }

/-- Begins to track a token unless it is tracked already. -/
def ensure (h : History) (token : ScanToken) (now : Nat) : History :=
  if (h.find? token).isSome then h else h.track token now

/-- Records the message of a sender for a token that is tracked. -/
def recordTracked (h : History) (token : ScanToken) (sender : UInt64)
    (entries : List ShareEntry) : RecordOutcome × History :=
  let limit := h.limits.maxSenders.toNat
  match h.find? token with
  | none => (.senderLimitReached, h)
  | some t =>
    ((t.record limit sender entries).1,
      h.update token fun t => (t.record limit sender entries).2)

/-- Records the message of a sender for a token, which is tracked from now on if it was not. -/
def record (h : History) (token : ScanToken) (sender : UInt64) (entries : List ShareEntry)
    (now : Nat) : RecordOutcome × History :=
  (h.ensure token now).recordTracked token sender entries

/-- The messages recorded for a token, in the order of their arrival. -/
def messages? (h : History) (token : ScanToken) : Option (List SenderShares) :=
  (h.find? token).map TrackedToken.messages

/-- The generation of a token and its messages. -/
def snapshot? (h : History) (token : ScanToken) : Option (UInt64 × List SenderShares) :=
  (h.find? token).map fun t => (t.generation, t.messages)

/-- The number of senders heard for a token. -/
def senderCount (h : History) (token : ScanToken) : Nat :=
  match h.find? token with
  | none => 0
  | some t => t.senders.length

/-- The state of a token, if it is tracked. -/
def state? (h : History) (token : ScanToken) : Option TokenState :=
  (h.find? token).map TrackedToken.state

/-- Marks a token as matched if it is still tracked in the given generation, and says if so. -/
def markMatched (h : History) (token : ScanToken) (generation : UInt64) : Bool × History :=
  if (h.find? token).any fun t => t.generation = generation then
    (true, h.update token fun t => { t with state := .matched })
  else (false, h)

/-- Drops a token and says whether it was tracked. -/
def evict (h : History) (token : ScanToken) : Bool × History :=
  if (h.find? token).isSome then
    (true, { h with
      tracked := h.tracked.filter fun t => t.token ≠ token
      order := h.order.filter (· ≠ token) })
  else (false, h)

/-- Drops the tokens tracked for longer than their lifetime and says how many these were. -/
def prune (h : History) (now : Nat) : Nat × History :=
  match h.limits.lifetime with
  | none => (0, h)
  | some lifetime =>
    let kept := h.tracked.filter fun t => !t.expired lifetime now
    let stays (token : ScanToken) : Bool := kept.any fun t => t.token = token
    (h.tracked.length - kept.length, { h with tracked := kept, order := h.order.filter stays })

end History

end LinkCommittee
