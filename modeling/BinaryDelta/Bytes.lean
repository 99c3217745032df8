/-!
# Byte strings

A `ByteArray` is a byte string; its view is the list `b.data.toList`. Here are the few operations on
byte strings that core does not have.

Results:
* `appendBytes_eq`: appending a list byte by byte appends its byte string.
* `toList_extract`, `toList_append`: the views of parts and of what is put together.
-/

namespace BinaryDelta

/-- The bytes of a list, as a byte string. -/
def packBytes (bytes : List UInt8) : ByteArray := ⟨bytes.toArray⟩

@[simp] theorem data_packBytes (bytes : List UInt8) : (packBytes bytes).data = bytes.toArray := rfl

@[simp] theorem size_packBytes (bytes : List UInt8) : (packBytes bytes).size = bytes.length := by
  simp [ByteArray.size]

@[simp] theorem packBytes_nil : packBytes [] = ByteArray.empty := rfl

@[simp] theorem packBytes_toList (b : ByteArray) : packBytes b.data.toList = b := rfl

theorem packBytes_append (xs ys : List UInt8) :
    packBytes (xs ++ ys) = packBytes xs ++ packBytes ys := by
  apply ByteArray.ext
  simp

theorem toList_append (a b : ByteArray) :
    (a ++ b).data.toList = a.data.toList ++ b.data.toList := by
  simp

/-- The view of a part. -/
theorem toList_extract (b : ByteArray) (start stop : Nat) :
    (b.extract start stop).data.toList = (b.data.toList.take stop).drop start := by
  simp [List.extract_eq_take_drop, List.drop_take]

theorem length_toList (b : ByteArray) : b.data.toList.length = b.size := by
  simp

theorem drop_toList {b : ByteArray} {i : Nat} (h : i < b.size) :
    b.data.toList.drop i = b[i] :: b.data.toList.drop (i + 1) :=
  List.drop_eq_getElem_cons (by rwa [length_toList])

/-- Byte strings with one view are equal. -/
theorem eq_of_toList_eq {a b : ByteArray} (h : a.data.toList = b.data.toList) : a = b :=
  ByteArray.ext (Array.toList_inj.mp h)

/-- Appends the bytes of a list. -/
def appendBytes (out : ByteArray) (bytes : List UInt8) : ByteArray :=
  bytes.foldl ByteArray.push out

/-- Appending a list byte by byte appends its byte string. -/
theorem appendBytes_eq (out : ByteArray) (bytes : List UInt8) :
    appendBytes out bytes = out ++ packBytes bytes := by
  induction bytes generalizing out with
  | nil => exact (ByteArray.append_empty).symm
  | cons b bytes ih =>
    show appendBytes (out.push b) bytes = _
    rw [ih]
    apply ByteArray.ext
    simp

/-- So many zero bytes. -/
def zeroBytes (n : Nat) : ByteArray := ⟨Array.replicate n 0⟩

@[simp] theorem size_zeroBytes (n : Nat) : (zeroBytes n).size = n := by
  simp [zeroBytes, ByteArray.size]

end BinaryDelta
