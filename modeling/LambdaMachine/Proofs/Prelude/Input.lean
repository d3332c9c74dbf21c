import LambdaMachine.Proofs.Prelude.Host
import Mathlib.Data.List.Infix

/-!
The input of programs. However often a byte is asked for, the answers are what the source holds up
to its first end mark, one after the other, and from then on the end. A reader is polled for the
events up to that mark, and for none behind it.
-/

namespace LambdaMachine

namespace Event

def isFinish : Event → Bool
  | .finish => true
  | _ => false

def report? : Event → Option (Except String UInt8)
  | .byte octet => some (.ok octet)
  | .failure text => some (.error text)
  | .finish => none
  | .interruption => none

end Event

namespace Feed

def beforeEnd (feed : Feed) : Feed :=
  feed.takeWhile fun event => !event.isFinish

def afterEnd (feed : Feed) : Feed :=
  (feed.dropWhile fun event => !event.isFinish).tail

def reports (feed : Feed) : List (Except String UInt8) :=
  feed.beforeEnd.filterMap Event.report?

def polled : Feed → List Event
  | [] => [.finish]
  | .interruption :: rest => .interruption :: polled rest
  | event :: _ => [event]

/-- What is polled is taken from the feed, and nothing else is. -/
theorem nextByte_eq_drop (feed : Feed) : feed.nextByte.2 = feed.drop feed.polled.length := by
  induction feed with
  | nil => rfl
  | cons event rest ih =>
      cases event with
      | byte byte => rfl
      | finish => rfl
      | failure text => rfl
      | interruption => exact ih

/-- Asking for a byte finds the end mark, or reports what comes first before it. -/
theorem nextByte_cases (feed : Feed) :
    (feed.reports = [] ∧ feed.nextByte = (.ok none, feed.afterEnd) ∧
      feed.polled = feed.beforeEnd ++ [.finish]) ∨
    ∃ report rest, feed.nextByte = (report.map some, rest) ∧
      feed.reports = report :: rest.reports ∧ feed.afterEnd = rest.afterEnd ∧
      feed.beforeEnd = feed.polled ++ rest.beforeEnd := by
  induction feed with
  | nil => exact .inl ⟨rfl, rfl, rfl⟩
  | cons event rest ih =>
      cases event with
      | byte byte => exact .inr ⟨.ok byte, rest, rfl, rfl, rfl, rfl⟩
      | finish => exact .inl ⟨rfl, rfl, rfl⟩
      | failure text => exact .inr ⟨.error text, rest, rfl, rfl, rfl, rfl⟩
      | interruption =>
          rcases ih with ⟨nothing, ended, polled⟩ | ⟨report, later, found, reports, behind, polled⟩
          · exact .inl ⟨nothing, ended, congrArg (Event.interruption :: ·) polled⟩
          · exact .inr ⟨report, later, found, reports, behind,
              congrArg (Event.interruption :: ·) polled⟩

end Feed

namespace Input

def afterReads : Nat → Input → Input
  | 0, input => input
  | attempts + 1, input => afterReads attempts input.read.2

def answers : Nat → Input → List (Except String (Option UInt8))
  | 0, _ => []
  | attempts + 1, input => input.read.1 :: answers attempts input.read.2

def polled : Input → List Event
  | .reader feed false => feed.polled
  | _ => []

def polls : Nat → Input → List Event
  | 0, _ => []
  | attempts + 1, input => input.polled ++ polls attempts input.read.2

def contents : Input → List (Except String UInt8)
  | .empty => []
  | .buffer bytes => bytes.map .ok
  | .reader feed false => feed.reports
  | .reader _ true => []

/-- The events of a reader up to the first end mark, which is the last of them. -/
def throughEnd : Input → List Event
  | .reader feed false => feed.beforeEnd ++ [.finish]
  | _ => []

def exhausted : Input → Input
  | .empty => .empty
  | .buffer _ => .buffer []
  | .reader feed false => .reader feed.afterEnd true
  | .reader feed true => .reader feed true

variable (input : Input) (attempts : Nat)

theorem afterReads_add (more : Nat) :
    input.afterReads (attempts + more) = (input.afterReads attempts).afterReads more := by
  induction attempts generalizing input with
  | zero => rw [Nat.zero_add, afterReads]
  | succ attempts ih =>
      rw [Nat.add_right_comm, afterReads, afterReads]
      exact ih input.read.2

theorem Ended.afterReads {input : Input} (ended : input.Ended) (attempts : Nat) :
    input.afterReads attempts = input := by
  induction attempts with
  | zero => rfl
  | succ attempts ih => rw [Input.afterReads, ended, ih]

/-- An attempt to read finds the end, or reports what comes first of what the source holds. -/
theorem read_cases :
    (input.contents = [] ∧ input.read = (.ok none, input.exhausted) ∧
      input.polled = input.throughEnd) ∨
    ∃ report rest, input.read = (report.map some, rest) ∧
      input.contents = report :: rest.contents ∧ input.exhausted = rest.exhausted ∧
      input.throughEnd = input.polled ++ rest.throughEnd := by
  cases input with
  | empty => exact .inl ⟨rfl, rfl, rfl⟩
  | buffer bytes =>
      cases bytes with
      | nil => exact .inl ⟨rfl, rfl, rfl⟩
      | cons byte bytes => exact .inr ⟨.ok byte, .buffer bytes, rfl, rfl, rfl, rfl⟩
  | reader feed ended =>
      cases ended with
      | true => exact .inl ⟨rfl, rfl, rfl⟩
      | false =>
          rcases feed.nextByte_cases with
            ⟨nothing, next, polled⟩ | ⟨report, rest, next, reports, behind, polled⟩
          · exact .inl ⟨nothing, by rw [read, next]; rfl, polled⟩
          · refine .inr ⟨report, .reader rest false, ?_, reports, ?_, ?_⟩
            · rw [read, next]
              cases report <;> rfl
            · exact congrArg (Input.reader · true) behind
            · rw [throughEnd, polled, List.append_assoc]
              rfl

theorem exists_read_reader (feed : Feed) (ended : Bool) :
    ∃ endedAfter, (reader feed ended).read.2 =
      .reader (feed.drop (reader feed ended).polled.length) endedAfter := by
  cases ended with
  | true => exact ⟨true, rfl⟩
  | false =>
      rw [polled, ← feed.nextByte_eq_drop, read]
      split
      · rename_i next
        exact ⟨true, by rw [next]⟩
      · rename_i next
        exact ⟨false, by rw [next]⟩

/-- What a reader has been polled for is what has been taken from it. -/
theorem exists_afterReads_reader (feed : Feed) (ended : Bool) :
    ∃ endedAfter, (reader feed ended).afterReads attempts =
      .reader (feed.drop ((reader feed ended).polls attempts).length) endedAfter := by
  induction attempts generalizing feed ended with
  | zero => exact ⟨ended, rfl⟩
  | succ attempts ih =>
      obtain ⟨endedNext, next⟩ := exists_read_reader feed ended
      rw [afterReads, polls, next, List.length_append, ← List.drop_drop]
      exact ih _ endedNext

theorem contents_exhausted : input.exhausted.contents = [] := by
  cases input with
  | reader feed ended => cases ended <;> rfl
  | _ => rfl

theorem ended_exhausted : input.exhausted.Ended := by
  cases input with
  | reader feed ended => cases ended <;> rfl
  | _ => rfl

theorem polled_exhausted : input.exhausted.polled = [] := by
  cases input with
  | reader feed ended => cases ended <;> rfl
  | _ => rfl

theorem polls_exhausted : input.exhausted.polls attempts = [] := by
  induction attempts with
  | zero => rfl
  | succ attempts ih => rw [polls, polled_exhausted, ended_exhausted, ih, List.nil_append]

/-- The bytes and failures come in order, and then the end, as often as it is asked for. -/
theorem answers_eq :
    input.answers attempts =
      (input.contents.map (Except.map some)).take attempts ++
        List.replicate (attempts - input.contents.length) (.ok none) := by
  induction attempts generalizing input with
  | zero => rw [answers, List.take_zero, Nat.zero_sub, List.replicate_zero, List.append_nil]
  | succ attempts ih =>
      rcases input.read_cases with ⟨nothing, found, _⟩ | ⟨report, rest, found, contents, _, _⟩
      · rw [answers, found, ih, contents_exhausted, nothing]
        simp only [List.map_nil, List.take_nil, List.nil_append, List.length_nil, Nat.sub_zero,
          List.replicate_succ]
      · rw [answers, found, ih, contents, List.length_cons, Nat.add_sub_add_right]
        rfl

theorem polls_prefix : input.polls attempts <+: input.throughEnd := by
  induction attempts generalizing input with
  | zero => exact List.nil_prefix
  | succ attempts ih =>
      rcases input.read_cases with ⟨_, found, polled⟩ | ⟨report, rest, found, _, _, polled⟩
      · rw [polls, found, polls_exhausted, List.append_nil, polled]
      · rw [polls, found, polled]
        exact (List.prefix_append_right_inj _).mpr (ih rest)

/-- After the first answer that tells of the end, the reader has been polled up to its first end
mark, and it is never polled again. -/
theorem polls_eq_throughEnd {input : Input} {attempts : Nat}
    (past : input.contents.length < attempts) :
    input.polls attempts = input.throughEnd ∧ input.afterReads attempts = input.exhausted := by
  induction attempts generalizing input with
  | zero => exact absurd past (Nat.not_lt_zero _)
  | succ attempts ih =>
      rcases input.read_cases with
        ⟨_, found, polled⟩ | ⟨report, rest, found, contents, exhausted, polled⟩
      · rw [polls, afterReads, found, polls_exhausted, input.ended_exhausted.afterReads, polled,
          List.append_nil]
        exact ⟨rfl, rfl⟩
      · rw [contents, List.length_cons] at past
        obtain ⟨restPolls, restLeft⟩ := ih (Nat.lt_of_succ_lt_succ past)
        rw [polls, afterReads, found, restPolls, restLeft, polled, exhausted]
        exact ⟨rfl, rfl⟩

end Input

end LambdaMachine
