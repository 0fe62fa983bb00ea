import Nicenet.Session.Receive

/-!
# The parser between two calls

A session starts without a message and hands every chunk it reads to `parseMsg`.
Between two calls the bytes received are whole frames followed by the bytes that
`m_PreMsg` holds, or `m_PreMsg` is a buffer that every later call rejects
(`Settled`). Every call of a run starts from a settled session, which tells the
streams on which `m_PreMsg` keeps its shape and all copies stay in range.
-/

namespace Nicenet

open Library

/-! ## The shapes between calls -/

theorem Holds.buff_null {message : Message} (holds : Holds message []) :
    message.buff = .null := by
  generalize nothing : ([] : List UInt8) = pending at holds
  cases holds with
  | null null => exact null
  | scratch aliased some few =>
      have length := congrArg List.length nothing
      rw [length_scratchBytes few, List.length_nil] at length
      omega
  | body buff announced header unfinished limit =>
      have length := congrArg List.length nothing
      rw [List.length_take, List.length_nil] at length
      omega

theorem Holds.buff_ne_null {message : Message} {pending : List UInt8}
    (holds : Holds message pending) (nonempty : pending ≠ []) :
    message.buff ≠ .null := by
  cases holds with
  | null => exact absurd rfl nonempty
  | scratch aliased => rw [aliased]; exact Buff.noConfusion
  | body buff => rw [buff]; exact Buff.noConfusion

section Shapes

variable {message : Message} {pending data : List UInt8}

/-- A split size is short when the next frame, read off the pending bytes and
the chunk, announces fewer than four bytes. -/
theorem shortHeader_iff (holds : Holds message pending) :
    ShortHeader message data ↔ pending ≠ [] ∧ pending.length < 4 ∧
      frames.Ready (pending ++ data) ∧ frames.size (pending ++ data) < 4 := by
  cases holds with
  | null null =>
      constructor
      · rintro ⟨aliased, _⟩
        rw [null] at aliased
        exact Buff.noConfusion aliased
      · rintro ⟨nonempty, _⟩
        exact absurd rfl nonempty
  | scratch aliased some few =>
      have pending := length_scratchBytes few
      have length : (message.scratchBytes ++ data).length =
          message.readPoint.toNat + data.length := by
        rw [List.length_append, pending]
      constructor
      · rintro ⟨_, full, tiny⟩
        refine ⟨?_, by omega, ⟨?_, ?_, ?_⟩, tiny⟩
        · intro empty
          rw [empty, List.length_nil] at pending
          omega
        all_goals simp only [frames_header, frames_size, frames_limit, msgSize]
        all_goals omega
      · rintro ⟨_, _, ⟨full, _⟩, tiny⟩
        rw [frames_header, length] at full
        exact ⟨aliased, full, tiny⟩
  | body buff announced header unfinished limit =>
      constructor
      · rintro ⟨aliased, _⟩
        rw [buff] at aliased
        exact Buff.noConfusion aliased
      · rintro ⟨_, few, _⟩
        rw [List.length_take] at few
        omega

/-- A chunk completes a frame when the pending bytes and the chunk start with a
whole one. -/
theorem completes_iff (holds : Holds message pending) :
    Completes message data ↔ pending ≠ [] ∧ frames.Ready (pending ++ data) := by
  cases holds with
  | null null => simp [Completes, null]
  | scratch aliased some few =>
      have pending := length_scratchBytes few
      have nonempty : message.scratchBytes ≠ [] := by
        intro empty
        rw [empty, List.length_nil] at pending
        omega
      simp only [Completes, aliased, Framing.Ready, frames_header, frames_size,
        frames_limit, List.length_append, pending, ne_eq, nonempty,
        not_false_eq_true, true_and]
  | @body memory buff announced header unfinished limit =>
      have taken : (memory.take message.writePoint.toNat).length =
          message.writePoint.toNat := by
        rw [List.length_take]
        omega
      have nonempty : memory.take message.writePoint.toNat ≠ [] := by
        intro empty
        rw [empty, List.length_nil] at taken
        omega
      have size : readWord (memory.take message.writePoint.toNat ++ data) =
          message.getSize := by
        rw [readWord_append _ (by omega), readWord_take header, Message.getSize,
          buff]
      simp only [Completes, buff, Framing.Ready, frames_header, frames_size,
        frames_limit, List.length_append, taken, ne_eq, nonempty,
        not_false_eq_true, true_and, size]
      omega

end Shapes

/-- What holds between two calls: the stream received so far is whole frames and
then the bytes `m_PreMsg` holds, or `m_PreMsg` is beyond repair. -/
inductive Settled (message : Message) (received : List UInt8) : Prop where
  | stream {taken : List (List UInt8)} {pending : List UInt8} :
      frames.Strips received taken pending → frames.Waits pending →
      Holds message pending → Settled message received
  | oversize {memory : List UInt8} :
      message.buff = .heap memory → msgSize < message.getSize.toNat →
      Settled message received

theorem waits_nil : frames.Waits [] := .inl (by simp)

theorem Settled.init : Settled Message.empty [] :=
  .stream (.refl []) waits_nil (.null rfl)

theorem Settled.ofDropped {message : Message} (dropped : Dropped message) :
    Settled message [] := by
  cases dropped with
  | null null => exact .stream (.refl []) waits_nil (.null null)
  | oversize buff oversize => exact .oversize buff oversize

/-- Everything a call can do to a settled session. -/
inductive Outcome (received data : List UInt8) (call : Activation) : Prop where
  | accepted {taken : List (List UInt8)} {pending : List UInt8} :
      call.exit = .ret true → frames.Strips (received ++ data) taken pending →
      frames.Waits pending → Holds call.preMsg pending →
      Outcome received data call
  | rejected : call.exit = .ret false → Settled call.preMsg [] →
      Outcome received data call
  | lost : (∀ accepted, call.exit ≠ .ret accepted) → Outcome received data call

section Call

variable (heap : Heap) {message : Message} {received data : List UInt8}

theorem Settled.outcome (settled : Settled message received)
    (chunk : IsChunk data) :
    Outcome received data (parseMsg heap (data.length + 1) message data) := by
  cases settled with
  | @stream taken pending strips waits holds =>
      by_cases empty : pending = []
      · subst empty
        have null := holds.buff_null
        by_cases stalls : frames.Stalls data
        · obtain ⟨rest, recursing⟩ :=
            parseMsg_stalls heap (data.length + 1) null chunk stalls
          apply Outcome.lost
          rw [recursing]
          exact fun _ => Exit.noConfusion
        · obtain ⟨later, rest, next, _, ⟨waits, exit, holds⟩ | ⟨_, exit, dropped⟩⟩ :=
            parseMsg_fresh heap (data.length + 1) null chunk stalls
              (Nat.lt_succ_self _)
          · exact .accepted exit (strips.append data next) waits holds
          · exact .rejected exit (.ofDropped dropped)
      · rw [parseMsg_pending heap holds chunk empty]
        have step := parseMsgBody_step heap holds chunk
        cases step with
        | wait waits _ exit holds =>
            exact .accepted exit (strips.append data (.refl _)) waits holds
        | reject _ _ exit dropped => exact .rejected exit (.ofDropped dropped)
        | frame fresh => exact absurd fresh empty
        | crash _ _ _ _ exit =>
            apply Outcome.lost
            rw [exit]
            exact fun _ => Exit.noConfusion
        | overrun _ _ _ _ _ exit =>
            apply Outcome.lost
            rw [exit]
            exact fun _ => Exit.noConfusion
  | oversize buff oversize =>
      have once := parseMsgBody_oversize heap buff oversize chunk
      rw [parseMsg_of_ret heap data.length (by rw [once, Activation.finish_exit]),
        once]
      exact .rejected rfl (.oversize buff oversize)

/-- After a call that returned true the stream is whole frames and then the
bytes `m_PreMsg` holds. -/
theorem Settled.accepted (settled : Settled message received)
    (chunk : IsChunk data)
    (exit : (parseMsg heap (data.length + 1) message data).exit = .ret true) :
    ∃ taken pending, frames.Strips (received ++ data) taken pending ∧
      frames.Waits pending ∧
      Holds (parseMsg heap (data.length + 1) message data).preMsg pending := by
  cases settled.outcome heap chunk with
  | accepted _ strips waits holds => exact ⟨_, _, strips, waits, holds⟩
  | rejected other =>
      rw [other] at exit
      simp at exit
  | lost other => exact absurd exit (other true)

/-- A call that returned false leaves nothing of the stream behind. -/
theorem Settled.rejected (settled : Settled message received)
    (chunk : IsChunk data)
    (exit : (parseMsg heap (data.length + 1) message data).exit = .ret false) :
    Settled (parseMsg heap (data.length + 1) message data).preMsg [] := by
  cases settled.outcome heap chunk with
  | accepted other =>
      rw [other] at exit
      simp at exit
  | rejected _ settled => exact settled
  | lost other => exact absurd exit (other false)

/-- Without a split size below four every call stays in range, however many of
its activations are looked at. -/
theorem parseMsg_safe_fresh (fuel : Nat) (null : message.buff = .null)
    (chunk : IsChunk data) : (parseMsg heap fuel message data).Safe := by
  induction fuel generalizing message data with
  | zero => exact Activation.safe_recurse message data
  | succ fuel ih =>
      have step := parseMsgBody_step heap (.null null) chunk
      cases step with
      | wait _ _ exit _ safe =>
          rw [parseMsg_of_ret heap fuel exit]
          exact safe
      | reject _ _ exit _ safe =>
          rw [parseMsg_of_ret heap fuel exit]
          exact safe
      | frame _ _ _ after exit safe =>
          by_cases more : frames.size data < data.length
          · rw [if_pos more] at exit
            rw [parseMsg_of_recurse heap fuel exit]
            intro op member
            rcases List.mem_append.mp member with own | later
            · exact safe op own
            · exact ih after (chunk.drop more) op later
          · rw [if_neg more] at exit
            rw [parseMsg_of_ret heap fuel exit]
            exact safe
      | crash nonempty => exact absurd rfl nonempty
      | overrun nonempty => exact absurd rfl nonempty

theorem Settled.safe_iff (settled : Settled message received)
    (chunk : IsChunk data) :
    (∀ fuel, (parseMsg heap fuel message data).Safe) ↔
      ¬ShortHeader message data := by
  cases settled with
  | @stream taken pending strips waits holds =>
      rw [shortHeader_iff holds]
      by_cases empty : pending = []
      · subst empty
        have safe := fun fuel => parseMsg_safe_fresh heap fuel holds.buff_null chunk
        exact iff_of_true safe fun short => absurd rfl short.1
      · have body : (∀ fuel, (parseMsg heap fuel message data).Safe) ↔
            (parseMsgBody heap message data).Safe := by
          constructor
          · intro safe
            rw [← parseMsg_pending heap holds chunk empty 0]
            exact safe 1
          · rintro safe (_ | fuel)
            · exact Activation.safe_recurse message data
            · rw [parseMsg_pending heap holds chunk empty]
              exact safe
        rw [body]
        have step := parseMsgBody_step heap holds chunk
        cases step with
        | wait waits _ _ _ safe =>
            exact iff_of_true safe fun short => short.2.2.1.not_waits waits
        | reject rejects _ _ _ safe =>
            exact iff_of_true safe fun short => short.2.2.1.not_rejects rejects
        | frame fresh => exact absurd fresh empty
        | crash _ _ sized _ _ safe =>
            refine iff_of_true safe fun short => ?_
            have := sized short.2.1
            omega
        | overrun nonempty few ready tiny _ _ overran =>
            exact iff_of_false overran fun long => long ⟨nonempty, few, ready, tiny⟩
  | oversize buff oversize =>
      have once := parseMsgBody_oversize heap buff oversize chunk
      apply iff_of_true
      · rintro (_ | fuel)
        · exact Activation.safe_recurse message data
        · rw [parseMsg_of_ret heap fuel (by rw [once, Activation.finish_exit]), once]
          exact Activation.safe_finish message false
      · rintro ⟨aliased, _⟩
        rw [buff] at aliased
        exact Buff.noConfusion aliased

end Call

/-! ## Every call of a run -/

section Run

variable (transport : Transport) (heap : Heap)

/-- Every call of a run starts from a settled session. -/
theorem feeds_settled {before : Message} {received : List UInt8}
    {chunks : List (List UInt8)} (settled : Settled before received)
    (legal : ∀ chunk ∈ chunks, IsChunk chunk) :
    ∀ feed ∈ feeds transport heap before received chunks,
      Settled feed.before feed.received ∧ IsChunk feed.chunk ∧
        feed.call =
          parseMsg heap (feed.chunk.length + 1) feed.before feed.chunk := by
  induction chunks generalizing before received with
  | nil =>
      intro feed member
      exact absurd member List.not_mem_nil
  | cons chunk chunks ih =>
      intro feed member
      have chunkLegal := legal chunk List.mem_cons_self
      have restLegal : ∀ chunk ∈ chunks, IsChunk chunk :=
        fun other inside => legal other (List.mem_cons_of_mem _ inside)
      rw [feeds, Transport.parseMsg_eq, List.mem_cons] at member
      rcases member with rfl | member
      · exact ⟨settled, chunkLegal, rfl⟩
      · generalize exit : (parseMsg heap (chunk.length + 1) before chunk).exit =
          result at member
        cases result with
        | ret accepted =>
            cases accepted with
            | true =>
                obtain ⟨taken, pending, strips, waits, holds⟩ :=
                  settled.accepted heap chunkLegal exit
                exact ih (.stream strips waits holds) restLegal feed member
            | false =>
                exact ih (settled.rejected heap chunkLegal exit) restLegal feed
                  member
        | recurse rest => exact absurd member List.not_mem_nil
        | fault fault => exact absurd member List.not_mem_nil

/-- After a call that returned true, `m_PreMsg` has one of its three shapes and
holds the bytes of the stream behind the last whole frame. -/
def Feed.WellShaped (feed : Feed) : Prop :=
  feed.call.exit = .ret true →
    ∃ taken pending, frames.Strips (feed.received ++ feed.chunk) taken pending ∧
      frames.Waits pending ∧ Holds feed.call.preMsg pending

/-- Every copy and every subtraction of a call stays in range. -/
def Feed.InRange (feed : Feed) : Prop :=
  ∀ fuel, (transport.parseMsg heap fuel feed.before feed.chunk).Safe

/-- Every call of a run keeps the parser in shape and stays in range. -/
def KeepsInvariant (chunks : List (List UInt8)) : Prop :=
  ∀ feed ∈ feeds transport heap Message.empty [] chunks,
    feed.WellShaped ∧ feed.InRange transport heap

instance (message : Message) (chunk : List UInt8) :
    Decidable (ShortHeader message chunk) :=
  inferInstanceAs (Decidable (_ ∧ _ ∧ _))

/-- The parser keeps its shape and stays in range on every stream in which no
size split over two chunks is below four. -/
theorem parser_invariant_iff (chunks : List (List UInt8))
    (legal : ∀ chunk ∈ chunks, IsChunk chunk) :
    KeepsInvariant transport heap chunks ↔
      ∀ feed ∈ feeds transport heap Message.empty [] chunks,
        ¬ShortHeader feed.before feed.chunk := by
  have each : ∀ feed ∈ feeds transport heap Message.empty [] chunks,
      (feed.WellShaped ∧ feed.InRange transport heap ↔
        ¬ShortHeader feed.before feed.chunk) := by
    intro feed member
    obtain ⟨settled, chunk, call⟩ :=
      feeds_settled transport heap Settled.init legal feed member
    have shaped : feed.WellShaped := by
      intro exit
      rw [call] at exit ⊢
      exact settled.accepted heap chunk exit
    rw [Feed.InRange, Transport.parseMsg_eq, settled.safe_iff heap chunk]
    exact and_iff_right shaped
  constructor
  · intro sound feed member
    exact (each feed member).mp (sound feed member)
  · intro long feed member
    exact (each feed member).mpr (long feed member)

/-- A frame whose size arrives in two chunks keeps the parser in shape. -/
theorem parser_invariant_split_size :
    KeepsInvariant .tcp (Heap.filled 0) [[6, 0], [0, 0, 7]] :=
  (parser_invariant_iff .tcp (Heap.filled 0) [[6, 0], [0, 0, 7]] (by
    simp [IsChunk, networkBufSize])).mpr (by decide)

/-- A size of zero whose bytes arrive in two chunks is copied into an allocation
of no bytes. -/
theorem parser_invariant_overrun :
    ¬KeepsInvariant .tcp (Heap.filled 0) [[0], [0, 0, 0]] := by
  intro sound
  have safe := (sound ⟨⟨.writePoint, 0, 1⟩, [0], [0, 0, 0],
    parseMsg (Heap.filled 0) 4 ⟨.writePoint, 0, 1⟩ [0, 0, 0]⟩ (by decide)).2 1
  exact absurd (safe (.memcpy 0 4 0 0 4) (by decide)) (by decide)

end Run

end Nicenet
