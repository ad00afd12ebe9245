import Mathlib

/-! # Strings, times and requests

The value types the whole program shares: `std::string` and C strings, `struct timeval` with the two
libc macros used on it, and the decoded protobuf message `Pinba__Request`. Report maps are
`std::map`, an ordered map: `Std.ExtTreeMap` under the comparison of its keys. -/

namespace Tinypinba

/-! ## Strings -/

/-- A `std::string`: any bytes, compared lexicographically as unsigned bytes. -/
abbrev StdString : Type := List UInt8

/-- The contents of a C string (`const char *`): the bytes before the terminating zero. -/
structure CString where
  /-- The bytes, without the terminator. -/
  bytes : StdString
  /-- No byte is the terminator. -/
  nulFree : 0 ∉ bytes
  deriving DecidableEq

namespace CString

/-- The C string at the start of a buffer: the bytes before its first zero. -/
def ofBuffer (buf : StdString) : CString :=
  ⟨buf.takeWhile (· ≠ 0), fun h => by simpa using List.mem_takeWhile_imp h⟩

/-- A C string is determined by its bytes. -/
theorem ext {a b : CString} (h : a.bytes = b.bytes) : a = b := by
  cases a
  cases b
  cases h
  rfl

/-- C strings are ordered as their bytes are. -/
instance : Ord CString := ⟨compareOn bytes⟩

/-- This is a linear order. -/
instance : Std.TransOrd CString := inferInstanceAs (Std.TransCmp (compareOn bytes))

/-- Strings that compare equal are equal. -/
instance : Std.LawfulEqOrd CString where
  eq_of_compare {a b} h := ext (Std.LawfulEqOrd.eq_of_compare (show compare a.bytes b.bytes = .eq from h))

end CString

/-! ## `struct timeval` -/

/-- `struct timeval`: seconds and microseconds, as numbers. The ranges of `time_t` and `suseconds_t` are
left out: a sum outside of them is undefined in C. -/
structure Timeval where
  /-- `tv_sec` -/
  tvSec : ℤ
  /-- `tv_usec` -/
  tvUsec : ℤ
  deriving DecidableEq, Repr

/-- `timercmp(a, b, <)`: seconds first, microseconds when they agree. -/
def timercmpLt (a b : Timeval) : Bool :=
  if a.tvSec = b.tvSec then a.tvUsec < b.tvUsec else a.tvSec < b.tvSec

/-- `timeradd(a, b, &result)`: add the parts and carry one second. -/
def timeradd (a b : Timeval) : Timeval :=
  if 1000000 ≤ a.tvUsec + b.tvUsec then
    ⟨a.tvSec + b.tvSec + 1, a.tvUsec + b.tvUsec - 1000000⟩
  else ⟨a.tvSec + b.tvSec, a.tvUsec + b.tvUsec⟩

/-- The zero time, the initial value of `next` in the worker. -/
def Timeval.zero : Timeval := ⟨0, 0⟩

/-! ## Requests -/

/-- `Pinba__Request`, the decoded packet: the fields that `request_check`, the report data and the
grouping by server name read. Decoding never puts a `NULL` into `requests`, so the nested requests are a
list of requests.

The host name, the script name and the contents of the tags are left out, although a report class may
group by them and its `add_record` may read them: a class that is a parameter of the model sees the
fields listed here. `TaggedRequest` has the tags, and `Message` every field of the packet. -/
structure PinbaRequest where
  /-- `server_name`, the group of a plain request report. -/
  serverName : CString
  /-- `document_size`, a `uint32_t`. -/
  documentSize : UInt32
  /-- `memory_footprint`, a `uint32_t`. -/
  memoryFootprint : UInt32
  /-- `n_timer_hit_count` -/
  nTimerHitCount : ℕ
  /-- `n_timer_value` -/
  nTimerValue : ℕ
  /-- `n_timer_tag_count` -/
  nTimerTagCount : ℕ
  /-- `n_dictionary` -/
  nDictionary : ℕ
  /-- `n_tag_name` -/
  nTagName : ℕ
  /-- `n_tag_value` -/
  nTagValue : ℕ
  /-- `requests`, `n_requests` of them. -/
  requests : List PinbaRequest

end Tinypinba
