import Mathlib.Data.List.TakeWhile
import TigeraWebservice.HeaderBlock
import TigeraWebservice.ReplyOrder

/-!
# The reply can be read back

`http_get_datetime`, and what a reader of header blocks makes of the output of
`http_response_write`. The text of the joke comes last and is measured, so that
nothing in it is looked at.
-/

set_option autoImplicit false

namespace Tigera.HttpReply
open HeaderBlock Tigera.JokeCreate Tigera.SessionWorld Tigera.SocketChannel Tigera.SessionProgram
open Tigera.SessionTurns Tigera.ReplyOrder

/-- `struct tm` as `gmtime_r` fills it in; the year counts from 1900. -/
structure Tm where
  sec : Fin 61
  min : Fin 60
  hour : Fin 24
  mday : Fin 32
  mon : Fin 12
  year : ℤ
  wday : Fin 7

def weekdays : List String := ["Sun", "Mon", "Tue", "Wed", "Thu", "Fri", "Sat"]

def months : List String :=
  ["Jan", "Feb", "Mar", "Apr", "May", "Jun", "Jul", "Aug", "Sep", "Oct", "Nov", "Dec"]

def twoDigits (n : ℕ) : Bytes := [(48 + n / 10).toUInt8, (48 + n % 10).toUInt8]

def signed (x : ℤ) : Bytes := if x < 0 then literal "-" ++ decimal x.natAbs else decimal x.natAbs

/-- The conversions of `strftime` that are used, in the C locale. -/
def conversion (tm : Tm) : Char → Bytes
  | 'a' => literal (weekdays.getD tm.wday "")
  | 'd' => twoDigits tm.mday
  | 'b' => literal (months.getD tm.mon "")
  | 'Y' => signed (tm.year + 1900)
  | 'H' => twoDigits tm.hour
  | 'M' => twoDigits tm.min
  | 'S' => twoDigits tm.sec
  | 'Z' => literal "GMT"
  | _ => []

def formatted (tm : Tm) : List Char → Bytes
  | [] => []
  | '%' :: c :: format => conversion tm c ++ formatted tm format
  | c :: format => c.toNat.toUInt8 :: formatted tm format

/-- The length is 0 when the text and its NUL take more than `max` bytes. -/
def strftime (max : ℕ) (format : String) (tm : Tm) : Bytes :=
  if (formatted tm format.toList).length < max then formatted tm format.toList else []

/-- `gmtime_r` may give nothing. -/
def httpGetDatetime (tm : Option Tm) : Option Bytes :=
  match tm with
  | none => none
  | some tm =>
    let datetime := strftime 38 "Date: %a, %d %b %Y %H:%M:%S %Z\r\n" tm
    if datetime.length ≠ 37 then none else some datetime

def fieldNames : List Bytes :=
  [literal "Content-Type", literal "Content-Length", literal "Server", literal "Date"]

/-- The number between the first two spaces of a status line. -/
def status (start : Bytes) : Option ℕ :=
  number (((start.dropWhile (· ≠ 32)).drop 1).takeWhile (· ≠ 32))

theorem decimal_digits (n : ℕ) : ∃ ds : List ℕ, ds ≠ [] ∧ (∀ d ∈ ds, d < 10) ∧
    decimal n = ds.map (fun d => (48 + d).toUInt8) ∧ ds.foldl (fun m d => m * 10 + d) 0 = n := by
  rcases Nat.eq_zero_or_pos n with rfl | hn
  · exact ⟨[0], List.cons_ne_nil _ _, by simp, rfl, rfl⟩
  · refine ⟨(Nat.digits 10 n).reverse, ?_, ?_, ?_, ?_⟩
    · rw [ne_eq, List.reverse_eq_nil_iff, Nat.digits_eq_nil_iff_eq_zero]
      exact Nat.ne_of_gt hn
    · intro d hd
      exact Nat.digits_lt_base (by decide) (List.mem_reverse.mp hd)
    · rw [decimal, if_neg (Nat.ne_of_gt hn)]
    · rw [List.foldl_reverse]
      conv_rhs => rw [← Nat.ofDigits_digits 10 n, Nat.ofDigits_eq_foldr]
      congr 1
      funext d m
      simp [Nat.mul_comm, Nat.add_comm]

theorem number_decimal (n : ℕ) : number (decimal n) = some n := by
  obtain ⟨ds, hne, hds, hn, hvalue⟩ := decimal_digits n
  have hmap : ds.map (fun d => (48 + d).toUInt8) ≠ [] := fun he => hne (List.map_eq_nil_iff.mp he)
  rw [hn, number, if_neg hmap, numberFrom_digits 0 ds hds, hvalue]

theorem decimal_mem {n : ℕ} {b : UInt8} (hb : b ∈ decimal n) : 48 ≤ b := by
  obtain ⟨ds, -, hds, hn, -⟩ := decimal_digits n
  rw [hn] at hb
  obtain ⟨d, hd, rfl⟩ := List.mem_map.mp hb
  exact (digit_range (hds d hd)).1

theorem decimal_clean (n : ℕ) : 10 ∉ decimal n := fun hm => absurd (decimal_mem hm) (by decide)

theorem twoDigits_clean {n : ℕ} (hn : n < 100) : 10 ∉ twoDigits n := by
  have hten : ∀ d < 10, (10 : UInt8) ≠ (48 + d).toUInt8 := fun d hd he => by
    have hrange := (digit_range hd).1
    rw [← he] at hrange
    exact absurd hrange (by decide)
  rw [twoDigits, List.mem_cons, List.mem_singleton, not_or]
  exact ⟨hten _ (by omega), hten _ (Nat.mod_lt n (by decide))⟩

theorem conversion_clean (tm : Tm) (c : Char) : 10 ∉ conversion tm c := by
  unfold conversion
  split
  · generalize tm.wday = d
    revert d
    decide
  · exact twoDigits_clean (by omega)
  · generalize tm.mon = m
    revert m
    decide
  · rw [signed]
    split
    · rw [List.mem_append, not_or]
      exact ⟨by decide, decimal_clean _⟩
    · exact decimal_clean _
  · exact twoDigits_clean (by omega)
  · exact twoDigits_clean (by omega)
  · exact twoDigits_clean (by omega)
  · decide
  · exact List.not_mem_nil

theorem formatted_clean (tm : Tm) (format : List Char)
    (hf : (format.all fun c => c.toNat.toUInt8 ≠ 10) = true) : 10 ∉ formatted tm format := by
  induction format using formatted.induct with
  | case1 => exact List.not_mem_nil
  | case2 c format ih =>
    rw [List.all_cons, List.all_cons, Bool.and_eq_true, Bool.and_eq_true] at hf
    rw [formatted, List.mem_append, not_or]
    exact ⟨conversion_clean tm c, ih hf.2.2⟩
  | case3 c format hc ih =>
    rw [List.all_cons, Bool.and_eq_true] at hf
    rw [formatted, List.mem_cons, not_or]
    · exact ⟨fun he => of_decide_eq_true hf.1 he.symm, ih hf.2⟩
    · exact hc

theorem strftime_text {max : ℕ} {format : String} {tm : Tm} (h : strftime max format tm ≠ []) :
    strftime max format tm = formatted tm format.toList := by
  by_cases hfit : (formatted tm format.toList).length < max
  · exact if_pos hfit
  · exact absurd (if_neg hfit) h

theorem datetime_line {tm : Option Tm} {d : Bytes} (h : httpGetDatetime tm = some d) :
    ∃ l, d = l ++ [13, 10] ∧ 10 ∉ l ∧ (field l).1 = literal "Date" := by
  cases tm with
  | none => cases h
  | some tm =>
    simp only [httpGetDatetime] at h
    split at h
    · cases h
    · next hlength =>
      have hsome : strftime 38 "Date: %a, %d %b %Y %H:%M:%S %Z\r\n" tm ≠ [] := by
        intro he
        rw [he] at hlength
        exact hlength (by decide)
      have hd := Option.some.inj h
      rw [strftime_text hsome] at hd
      refine ⟨formatted tm "Date: %a, %d %b %Y %H:%M:%S %Z".toList, ?_, ?_, rfl⟩
      · rw [← hd]
        simp [formatted]
      · exact formatted_clean tm _ rfl

theorem responseHead_lines (l body : Bytes) (n : ℕ) :
    (responseHead (l ++ [13, 10]) n).flatten ++ body =
      literal "HTTP/1.0 200 OK" ++ 13 :: 10 :: (literal "Content-Type: text/plain" ++ 13 :: 10 ::
        ((literal "Content-Length: " ++ decimal n) ++ 13 :: 10 ::
          (literal "Server: Tigera/WebServer/1.0.0" ++ 13 :: 10 ::
            (l ++ 13 :: 10 :: 13 :: 10 :: body)))) := by
  have hstatus : literal "HTTP/1.0 200 OK\r\n" = literal "HTTP/1.0 200 OK" ++ [13, 10] := by decide
  have htype : literal "Content-Type: text/plain\r\n" =
      literal "Content-Type: text/plain" ++ [13, 10] := by decide
  have hserver : literal "Server: Tigera/WebServer/1.0.0\r\n" =
      literal "Server: Tigera/WebServer/1.0.0" ++ [13, 10] := by decide
  have hend : literal "\r\n" = [13, 10] := by decide
  simp only [responseHead, hstatus, htype, hserver, hend, List.flatten_cons, List.flatten_nil,
    List.append_assoc, List.append_nil, List.cons_append, List.nil_append]

theorem header_lines (l body : Bytes) (n : ℕ) (hl : 10 ∉ l) (hne : l ≠ []) :
    lines [] ((responseHead (l ++ [13, 10]) n).flatten ++ body) =
      some ([literal "HTTP/1.0 200 OK", literal "Content-Type: text/plain",
        literal "Content-Length: " ++ decimal n, literal "Server: Tigera/WebServer/1.0.0", l],
        body) := by
  have hlength : 10 ∉ literal "Content-Length: " ++ decimal n := by
    rw [List.mem_append, not_or]
    exact ⟨by decide, decimal_clean n⟩
  rw [responseHead_lines, lines_line (by decide) (by decide), lines_line (by decide) (by decide),
    lines_line hlength (List.append_ne_nil_of_left_ne_nil (by decide) _),
    lines_line (by decide) (by decide), lines_line hl hne, lines_empty]
  rfl

theorem field_length (n : ℕ) :
    field (literal "Content-Length: " ++ decimal n) = (literal "Content-Length", decimal n) := by
  have hblank : (decimal n).dropWhile (· = 32) = decimal n := by
    rw [List.dropWhile_eq_self_iff]
    intro hpos he
    have hdigit := decimal_mem (List.getElem_mem hpos)
    rw [of_decide_eq_true he] at hdigit
    exact absurd hdigit (by decide)
  have hvalue : (field (literal "Content-Length: " ++ decimal n)).2 =
      (decimal n).dropWhile (· = 32) := rfl
  exact Prod.ext rfl (hvalue.trans hblank)

theorem readMessage_response (l body : Bytes) (hl : 10 ∉ l) (hne : l ≠ []) :
    readMessage (literal "Content-Length")
        ((responseHead (l ++ [13, 10]) body.length).flatten ++ body) =
      some ⟨literal "HTTP/1.0 200 OK", [field (literal "Content-Type: text/plain"),
        (literal "Content-Length", decimal body.length),
        field (literal "Server: Tigera/WebServer/1.0.0"), field l], body, []⟩ := by
  have hother : (field (literal "Content-Type: text/plain")).1 ≠ literal "Content-Length" := by decide
  rw [readMessage, header_lines l body body.length hl hne]
  simp only [List.map_cons, List.map_nil, field_length, List.find?_cons, hother, decide_false,
    decide_true, Option.bind_some, number_decimal, Nat.le_refl, if_true, List.take_length,
    List.drop_length]

/-- What is appended to the output is read back as the body, to its last byte,
under a status line and the four fields, each of them once. -/
theorem reply_read_back {P : Type} (c : Choices) (tm : Option Tm) (m n : ℕ) (body : CStr)
    (w : World P) (hdate : c.datetime = httpGetDatetime tm) (htime : (httpGetDatetime tm).isSome)
    (hadd : ∀ k, c.outputAdd k = true) (hchannel : (w.http m).channel = n)
    (hbev : (w.chan n).bev = some n) :
    ∃ u appended message, httpResponseWrite c m body w = (true, u) ∧
      (u.bev n).output = (w.bev n).output ++ appended ∧
      readMessage (literal "Content-Length") (outputBytes appended) = some message ∧
      message.content = body.bytes ∧ message.rest = [] ∧ status message.start = some 200 ∧
      message.fields.length = fieldNames.length ∧
      ∀ name ∈ fieldNames, (message.fields.map Prod.fst).count name = 1 := by
  obtain ⟨d, hd⟩ := Option.isSome_iff_exists.mp htime
  rcases httpResponseWrite_output (c := c) body w hchannel hbev with
    ⟨-, hfail⟩ | ⟨d', hd', hok, -, hout⟩
  · rcases hfail with hnone | ⟨k, hk⟩
    · rw [hdate, hd] at hnone
      cases hnone
    · rw [hadd k] at hk
      cases hk
  · obtain rfl : d' = d := Option.some.inj (hd'.symm.trans (hdate.trans hd))
    obtain ⟨l, rfl, hl, hname⟩ := datetime_line hd
    have hne : l ≠ [] := by
      rintro rfl
      cases hname
    have hread := readMessage_response l body.bytes hl hne
    rw [← outputBytes_response (l ++ [13, 10]) body.bytes body.addr] at hread
    have hstatus : status (literal "HTTP/1.0 200 OK") = some 200 := by decide
    refine ⟨(httpResponseWrite c m body w).2, responseChunks (l ++ [13, 10]) body, _,
      Prod.ext hok rfl, ?_, hread, rfl, rfl, hstatus, rfl, ?_⟩
    · rw [hout, Function.update_self]
    · simp only [List.map_cons, List.map_nil, hname]
      decide

def epoch : Tm := ⟨0, 0, 0, 1, 0, 70, 4⟩

def misleading : CStr := ⟨0, literal "HTTP/1.0 500 No\r\nContent-Length: 3\r\n\r\nDate: no\r\n\r\n"⟩

theorem reply_read_back_misleading :
    ∃ u appended message, httpResponseWrite { datetime := httpGetDatetime (some epoch) } 0 misleading
        (SessionRuns.accepted PlainMessages.libs true) = (true, u) ∧
      (u.bev 0).output = ((SessionRuns.accepted PlainMessages.libs true).bev 0).output ++ appended ∧
      readMessage (literal "Content-Length") (outputBytes appended) = some message ∧
      message.content = misleading.bytes ∧ message.rest = [] ∧ status message.start = some 200 ∧
      message.fields.length = fieldNames.length ∧
      ∀ name ∈ fieldNames, (message.fields.map Prod.fst).count name = 1 :=
  reply_read_back _ (some epoch) 0 0 misleading _ rfl (by decide) (fun _ => rfl) (by decide)
    (by decide)

end Tigera.HttpReply
