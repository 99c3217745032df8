import BinaryDelta.Error

/-!
# Byte readers

A byte reader is asked for at most so many bytes and answers with some of them, with an interruption
after which the call may be repeated, or with a fault. It hands back its next state with every
answer, so a reader that failed can be read further.

* `ByteReader` bounds what is still to come (`remaining`) and how often in a row it may interrupt
  (`patience`). The two bounds are what makes every loop over a reader end.
* `readSome` repeats interrupted calls, `readUpTo` collects until enough bytes arrived or the reader
  ended, `readExact` insists on the full count, `readEach` does so piece by piece.

Results:
* `size_le_of_readSome`, `size_le_of_readUpTo`: never more bytes than were asked for.
* `remaining_of_readSome`, `remaining_of_readUpTo`: what was delivered is no longer to come.
* `Kept.readExact`, `Kept.readEach`: what every call keeps is kept by reading on.

Out of scope: readers that never end, or that interrupt for ever.
-/

namespace BinaryDelta

/-- What one read call answers. -/
inductive Reply where
  /-- The bytes read; none if the reader has ended or nothing was asked for. -/
  | data (bytes : ByteArray)
  /-- The call was interrupted and may be repeated. -/
  | interrupted
  | failed (fault : Fault)

/-- What one move to another position answers. -/
inductive Moved (α : Type) where
  /-- The move ended at its goal. -/
  | reached (place : α)
  /-- The move was interrupted and may be repeated. -/
  | interrupted
  | failed (fault : Fault)

/-- The answer to a move that is not repeated when it is interrupted. -/
def Moved.once {α : Type} : Moved α → Except Fault α
  | reached place => .ok place
  | interrupted => .error .interruption
  | failed fault => .error fault

/-- The reply with so many bytes at most. -/
def Reply.clip (limit : Nat) : Reply → Reply
  | data bytes => data (if bytes.size ≤ limit then bytes else bytes.extract 0 limit)
  | interrupted => interrupted
  | failed fault => failed fault

theorem Reply.data_of_clip {reply : Reply} {limit : Nat} {bytes : ByteArray}
    (h : reply.clip limit = data bytes) :
    bytes.size ≤ limit ∧ ∃ whole, reply = data whole ∧ bytes.size ≤ whole.size := by
  cases reply with
  | data whole =>
    have h : (if whole.size ≤ limit then whole else whole.extract 0 limit) = bytes := by
      simpa [clip] using h
    subst h
    refine ⟨?_, whole, rfl, ?_⟩ <;> split <;> try rw [ByteArray.size_extract]
    all_goals omega
  | interrupted => simp [clip] at h
  | failed => simp [clip] at h

theorem Reply.interrupted_of_clip {reply : Reply} {limit : Nat}
    (h : reply.clip limit = interrupted) : reply = interrupted := by
  cases reply with
  | interrupted => rfl
  | data => simp [clip] at h
  | failed => simp [clip] at h

/-- A finite stream of bytes that is read from front to end. -/
class ByteReader (ρ : Type) where
  /-- One read call for at most that many bytes. -/
  read : ρ → Nat → Reply × ρ
  /-- A bound on the bytes still to come. -/
  remaining : ρ → Nat
  /-- A bound on the interruptions in a row. -/
  patience : ρ → Nat
  size_le_of_read : ∀ {r : ρ} {n : Nat} {bytes : ByteArray} {r' : ρ},
    read r n = (.data bytes, r') → bytes.size ≤ n
  remaining_of_read : ∀ {r : ρ} {n : Nat} {bytes : ByteArray} {r' : ρ},
    read r n = (.data bytes, r') → bytes.size + remaining r' ≤ remaining r
  remaining_of_interrupted : ∀ {r : ρ} {n : Nat} {r' : ρ},
    read r n = (.interrupted, r') → remaining r' ≤ remaining r
  patience_of_interrupted : ∀ {r : ρ} {n : Nat} {r' : ρ},
    read r n = (.interrupted, r') → patience r' < patience r

/-- Why an exact read came up short. -/
inductive Shortfall where
  | ended
  | fault (fault : Fault)
  deriving Repr, DecidableEq

namespace ByteReader

variable {ρ : Type} [ByteReader ρ]

/-- One read call, repeated while it is interrupted. -/
def readSome (r : ρ) (n : Nat) : Except Fault ByteArray × ρ :=
  match _h : read r n with
  | (.data bytes, r') => (.ok bytes, r')
  | (.failed fault, r') => (.error fault, r')
  | (.interrupted, r') => readSome r' n
termination_by patience r
decreasing_by exact patience_of_interrupted _h

theorem size_le_of_readSome {r r' : ρ} {n : Nat} {bytes : ByteArray}
    (h : readSome r n = (.ok bytes, r')) : bytes.size ≤ n := by
  fun_induction readSome r n with
  | case1 r bs r₁ hr =>
    obtain ⟨⟨⟩, rfl⟩ := Prod.mk.inj h
    exact size_le_of_read hr
  | case2 r f r₁ hr => simp at h
  | case3 r r₁ hr ih => exact ih h

theorem remaining_of_readSome {r r' : ρ} {n : Nat} {bytes : ByteArray}
    (h : readSome r n = (.ok bytes, r')) : bytes.size + remaining r' ≤ remaining r := by
  fun_induction readSome r n with
  | case1 r bs r₁ hr =>
    obtain ⟨⟨⟩, rfl⟩ := Prod.mk.inj h
    exact remaining_of_read hr
  | case2 r f r₁ hr => simp at h
  | case3 r r₁ hr ih => exact Nat.le_trans (ih h) (remaining_of_interrupted hr)

/-- Reads on behind `acc` until `n` more bytes arrived or the reader ended. -/
def readUpToAfter (acc : ByteArray) (r : ρ) (n : Nat) : Except Fault ByteArray × ρ :=
  if n = 0 then (.ok acc, r)
  else
    match readSome r n with
    | (.error fault, r') => (.error fault, r')
    | (.ok bytes, r') =>
      if bytes.size = 0 then (.ok acc, r') else readUpToAfter (acc ++ bytes) r' (n - bytes.size)
termination_by n

/-- Reads until `n` bytes arrived or the reader ended. Bytes read before a fault are lost. -/
def readUpTo (r : ρ) (n : Nat) : Except Fault ByteArray × ρ :=
  readUpToAfter ByteArray.empty r n

theorem size_le_of_readUpToAfter {acc bytes : ByteArray} {r r' : ρ} {n : Nat}
    (h : readUpToAfter acc r n = (.ok bytes, r')) : bytes.size ≤ acc.size + n := by
  fun_induction readUpToAfter acc r n with
  | case1 acc r =>
    obtain ⟨⟨⟩, rfl⟩ := Prod.mk.inj h
    omega
  | case2 => simp at h
  | case3 acc r n _ bs r₁ hr =>
    obtain ⟨⟨⟩, rfl⟩ := Prod.mk.inj h
    omega
  | case4 acc r n _ bs r₁ hr _ ih =>
    have := ih h
    have := size_le_of_readSome hr
    rw [ByteArray.size_append] at *
    omega

theorem remaining_of_readUpToAfter {acc bytes : ByteArray} {r r' : ρ} {n : Nat}
    (h : readUpToAfter acc r n = (.ok bytes, r')) :
    bytes.size + remaining r' ≤ acc.size + remaining r := by
  fun_induction readUpToAfter acc r n with
  | case1 acc r =>
    obtain ⟨⟨⟩, rfl⟩ := Prod.mk.inj h
    omega
  | case2 => simp at h
  | case3 acc r n _ bs r₁ hr =>
    obtain ⟨⟨⟩, rfl⟩ := Prod.mk.inj h
    have := remaining_of_readSome hr
    omega
  | case4 acc r n _ bs r₁ hr _ ih =>
    have := ih h
    have := remaining_of_readSome hr
    rw [ByteArray.size_append] at *
    omega

theorem size_le_of_readUpTo {bytes : ByteArray} {r r' : ρ} {n : Nat}
    (h : readUpTo r n = (.ok bytes, r')) : bytes.size ≤ n := by
  have := size_le_of_readUpToAfter h
  rwa [ByteArray.size_empty, Nat.zero_add] at this

theorem remaining_of_readUpTo {bytes : ByteArray} {r r' : ρ} {n : Nat}
    (h : readUpTo r n = (.ok bytes, r')) : bytes.size + remaining r' ≤ remaining r := by
  have := remaining_of_readUpToAfter h
  rwa [ByteArray.size_empty, Nat.zero_add] at this

/-- Reads exactly `n` bytes. A read that comes up short has consumed what there was. -/
def readExact (r : ρ) (n : Nat) : Except Shortfall ByteArray × ρ :=
  match readUpTo r n with
  | (.error fault, r') => (.error (.fault fault), r')
  | (.ok bytes, r') => if bytes.size < n then (.error .ended, r') else (.ok bytes, r')

theorem size_of_readExact {bytes : ByteArray} {r r' : ρ} {n : Nat}
    (h : readExact r n = (.ok bytes, r')) : bytes.size = n := by
  unfold readExact at h
  split at h
  · simp at h
  · rename_i hr
    split at h
    · simp at h
    · obtain ⟨⟨⟩, rfl⟩ := Prod.mk.inj h
      have := size_le_of_readUpTo hr
      omega

theorem remaining_of_readExact {bytes : ByteArray} {r r' : ρ} {n : Nat}
    (h : readExact r n = (.ok bytes, r')) : n + remaining r' ≤ remaining r := by
  have hs := size_of_readExact h
  unfold readExact at h
  split at h
  · simp at h
  · rename_i hr
    split at h
    · simp at h
    · obtain ⟨⟨⟩, rfl⟩ := Prod.mk.inj h
      have := remaining_of_readUpTo hr
      omega

/-- Reads pieces of these sizes one after the other, and answers with all their bytes. No call asks
for bytes of two pieces. -/
def readEach (r : ρ) : List Nat → Except Shortfall ByteArray × ρ
  | [] => (.ok ByteArray.empty, r)
  | n :: sizes =>
    match readExact r n with
    | (.error shortfall, r) => (.error shortfall, r)
    | (.ok bytes, r) =>
      match readEach r sizes with
      | (.error shortfall, r) => (.error shortfall, r)
      | (.ok rest, r) => (.ok (bytes ++ rest), r)

theorem remaining_of_readEach {sizes : List Nat} {bytes : ByteArray} {r r' : ρ}
    (h : readEach r sizes = (.ok bytes, r')) :
    sizes.foldr (· + ·) 0 + remaining r' ≤ remaining r := by
  induction sizes generalizing r bytes with
  | nil =>
    obtain ⟨_, rfl⟩ := Prod.mk.inj h
    exact Nat.le_of_eq (Nat.zero_add _)
  | cons n sizes ih =>
    unfold readEach at h
    split at h
    · simp at h
    · rename_i hn
      have := remaining_of_readExact hn
      split at h
      · simp at h
      · rename_i hs
        obtain ⟨_, rfl⟩ := Prod.mk.inj h
        have := ih hs
        rw [List.foldr_cons]
        omega

/-! ## What reading keeps -/

/-- A relation between a reader and what it may become, call by call. -/
structure Kept (R : ρ → ρ → Prop) : Prop where
  refl : ∀ r, R r r
  trans : ∀ {r₁ r₂ r₃}, R r₁ r₂ → R r₂ r₃ → R r₁ r₃
  read : ∀ r n, R r (read r n).2

namespace Kept

variable {R : ρ → ρ → Prop}

theorem of_read (k : Kept R) {r r' : ρ} {n : Nat} {reply : Reply}
    (h : ByteReader.read r n = (reply, r')) : R r r' := by
  have hk := k.read r n
  rwa [h] at hk

theorem readSome (k : Kept R) (r : ρ) (n : Nat) : R r (readSome r n).2 := by
  fun_induction ByteReader.readSome r n with
  | case1 r bytes r' h => exact k.of_read h
  | case2 r fault r' h => exact k.of_read h
  | case3 r r' h ih => exact k.trans (k.of_read h) ih

theorem of_readSome (k : Kept R) {r r' : ρ} {n : Nat} {answer : Except Fault ByteArray}
    (h : ByteReader.readSome r n = (answer, r')) : R r r' := by
  have hk := k.readSome r n
  rwa [h] at hk

theorem readUpToAfter (k : Kept R) (acc : ByteArray) (r : ρ) (n : Nat) :
    R r (readUpToAfter acc r n).2 := by
  fun_induction ByteReader.readUpToAfter acc r n with
  | case1 => exact k.refl _
  | case2 acc r n _ fault r' h => exact k.of_readSome h
  | case3 acc r n _ bytes r' h => exact k.of_readSome h
  | case4 acc r n _ bytes r' h _ ih => exact k.trans (k.of_readSome h) ih

theorem readExact (k : Kept R) (r : ρ) (n : Nat) : R r (readExact r n).2 := by
  have h := k.readUpToAfter ByteArray.empty r n
  unfold ByteReader.readExact readUpTo
  split
  · rename_i hr
    rwa [hr] at h
  · rename_i hr
    rw [hr] at h
    split <;> exact h

theorem readEach (k : Kept R) (r : ρ) (sizes : List Nat) : R r (readEach r sizes).2 := by
  induction sizes generalizing r with
  | nil => exact k.refl r
  | cons n sizes ih =>
    have h := k.readExact r n
    unfold ByteReader.readEach
    split
    · rename_i hn
      rwa [hn] at h
    · rename_i r' hn
      rw [hn] at h
      have ih := ih r'
      split <;> rename_i hs <;> rw [hs] at ih <;> exact k.trans h ih

end Kept

end ByteReader

end BinaryDelta
