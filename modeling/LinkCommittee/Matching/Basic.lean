import LinkCommittee.Matching.Search
import LinkCommittee.Message.Basic

/-!
# Matching tokens

A matcher records the shares that members send and decides whether the shares of a
token link it to a candidate address.  Trying a match has two steps on the history:
`begin?` takes the messages of the token, and `conclude` marks the token as matched.
The search runs between them on what was taken, so other steps may come in between;
the generation that was taken with the messages keeps a token that was dropped and
tracked anew from being marked.
-/

namespace LinkCommittee

/-- What is taken from the history to try a match. -/
structure Attempt where
  token : ScanToken
  generation : UInt64
  messages : List SenderShares
  identity : PublicKey
  auxiliary : PublicKey
deriving DecidableEq

/-- Searches the messages that were taken. -/
def Attempt.search (attempt : Attempt) (combiner : Combiner) : Tally :=
  combiner.search attempt.identity attempt.auxiliary (combinations attempt.messages)

namespace History

/-- Records share data: a whole number of entries, at least one and no more than the limit. -/
def recordShares (h : History) (token : ScanToken) (sender : UInt64) (data : List Char)
    (now : Nat) : Except MessageError (RecordOutcome × History) := do
  let entries ← ShareEntry.split data
  let limit := h.limits.maxSharesPerMessage.toNat
  if entries = [] then .error (.malformed .nothingReceived)
  else if limit < entries.length then .error (.tooManyShares entries.length limit)
  else .ok (h.record token sender entries now)

/-- Reads a message and records its share data. -/
def ingest (h : History) (raw : List Char) (now : Nat) :
    Except MessageError (RecordOutcome × History) := do
  let message ← Message.decodeChars raw
  h.recordShares message.token message.sender message.shareData now

/-- Takes what is needed to match a token with a candidate: keys of the candidate and at least
two messages. -/
def begin? (h : History) (token : ScanToken) (candidate : AbAddress) : Option Attempt := do
  let (identity, auxiliary) ← candidate.decompress.toOption
  let (generation, messages) ← h.snapshot? token
  if 2 ≤ messages.length then some ⟨token, generation, messages, identity, auxiliary⟩ else none

/-- Marks the token of a match, if it is still tracked in the generation that was searched. -/
def conclude (h : History) (attempt : Attempt) (tally : Tally) : History :=
  if tally.matched then (h.markMatched attempt.token attempt.generation).2 else h

/-- Tries to match a token with a candidate, with no other step in between. -/
def tryMatch (h : History) (combiner : Combiner) (token : ScanToken) (candidate : AbAddress) :
    Tally × History :=
  match h.begin? token candidate with
  | none => (.none, h)
  | some attempt =>
    let tally := attempt.search combiner
    (tally, h.conclude attempt tally)

/-- Tries to match a token with the address whose text it is. -/
def tryMatchToken (h : History) (combiner : Combiner) (token : ScanToken) : Tally × History :=
  match token.toAddress with
  | .error _ => (.none, h)
  | .ok candidate => h.tryMatch combiner token candidate

end History

end LinkCommittee
