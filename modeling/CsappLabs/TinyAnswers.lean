/-
# The files that Tiny sends

A file is sent whole, behind the headers that say its length and its type, when it can be opened
and has at least one byte and fewer than 2^31 (`static_complete_iff`): `mmap` refuses a length of
zero, and the length of a larger file is not an `int`.
-/
import CsappLabs.TinyRequests
import CsappLabs.HeaderFraming

open Effects Effects.Prog CString Relay
open Proxy (crlf terminated)

namespace Tiny

/-- The bytes that the server sends. -/
def replies (es : List Event) : List UInt8 :=
  (es.map fun
    | .reply s => s
    | .execve _ _ => []).flatten

/-- A response: the status, the headers, and the file. -/
def response (filename content : List UInt8) : List UInt8 :=
  terminated [text "HTTP/1.0 200 OK", text "Server: Tiny Web Server",
    text "Content-length: " ++ Radix.numeral 10 content.length,
    text "Content-type: " ++ getFiletype filename] ++ (crlf ++ content)

/-! ## The length of a file -/

/-- The length is an `int`. -/
theorem filesize_of_lt {file : File} (h : file.content.length < 2 ^ 31) :
    filesize file = file.content.length := by
  apply Int.bmod_eq_of_le <;> push_cast <;> omega

theorem filesize_lt (file : File) : filesize file < 2 ^ 31 := by
  have hhigh : filesize file < (((2 ^ 32 : ℕ) : ℤ) + 1) / 2 := Int.bmod_lt (by norm_num)
  norm_num at hhigh ⊢
  exact hhigh

/-- The number in the header can be read off the bytes. -/
theorem lengthLine_inj {n n' x x' : List UInt8} (hn : (13 : UInt8) ∉ n) (hn' : (13 : UInt8) ∉ n')
    (h : n ++ crlf ++ x = n' ++ crlf ++ x') : n = n' ∧ x = x' := by
  rw [Proxy.crlf_eq, List.append_assoc, List.append_assoc] at h
  obtain ⟨rfl, hrest⟩ := Proxy.append_cons_inj hn hn' h
  exact ⟨rfl, (List.cons.inj hrest).2⟩

theorem cr_notMem_signed (z : ℤ) : (13 : UInt8) ∉ Radix.signed 10 z := by
  have hdigit : ∀ d < 10, (13 : UInt8) ≠ Radix.digit d := by decide
  have hnumeral : (13 : UInt8) ∉ Radix.numeral 10 z.natAbs := by
    intro hmem
    obtain ⟨d, hd, heq⟩ := Radix.mem_numeral (by decide) hmem
    exact hdigit d hd heq
  rw [Radix.signed]
  split_ifs
  · rw [List.mem_cons, not_or]
    exact ⟨by decide, hnumeral⟩
  · exact hnumeral

/-! ## The response -/

/-- The bytes of a file that is sent. -/
theorem replies_serveStatic {filename : List UInt8} {file : File} (hopens : file.opens = true)
    (hsize : 0 < filesize file) :
    replies (serveStatic filename file).events =
      text "HTTP/1.0 200 OK\r\n" ++ (text "Server: Tiny Web Server\r\n" ++
        (text "Content-length: " ++ (Radix.signed 10 (filesize file) ++ crlf ++
          (text "Content-type: " ++ getFiletype filename ++ crlf ++ crlf ++
            file.content.take (filesize file).toNat)))) := by
  have hmap : mmap file = some (file.content.take (filesize file).toNat) := if_pos hsize
  rw [serveStatic_eq, record_bind, if_pos hopens, hmap]
  simp [replies]

theorem response_eq (filename content : List UInt8) :
    response filename content =
      text "HTTP/1.0 200 OK\r\n" ++ (text "Server: Tiny Web Server\r\n" ++
        (text "Content-length: " ++ (Radix.signed 10 content.length ++ crlf ++
          (text "Content-type: " ++ getFiletype filename ++ crlf ++ crlf ++ content)))) := by
  have hnumeral : Radix.signed 10 content.length = Radix.numeral 10 content.length :=
    if_neg (Int.not_lt.mpr (Int.natCast_nonneg _))
  have hstatus : text "HTTP/1.0 200 OK\r\n" = text "HTTP/1.0 200 OK" ++ crlf := by
    simp [text, crlf]
  have hserver : text "Server: Tiny Web Server\r\n" = text "Server: Tiny Web Server" ++ crlf := by
    simp [text, crlf]
  rw [hnumeral, hstatus, hserver, response]
  simp [List.append_assoc]

/-- **A file is sent whole** exactly when it can be opened, is not empty, and its length is an
`int`. -/
theorem serveStatic_complete_iff (filename : List UInt8) (file : File) :
    ((serveStatic filename file).result = .ok () ∧
      replies (serveStatic filename file).events = response filename file.content) ↔
      file.opens = true ∧ 0 < file.content.length ∧ file.content.length < 2 ^ 31 := by
  rw [serveStatic_ok_iff]
  constructor
  · rintro ⟨⟨hopens, hsize⟩, hbytes⟩
    rw [replies_serveStatic hopens hsize, response_eq, List.append_cancel_left_eq,
      List.append_cancel_left_eq, List.append_cancel_left_eq] at hbytes
    obtain ⟨hsigned, -⟩ := lengthLine_inj (cr_notMem_signed _) (cr_notMem_signed _) hbytes
    have hvalue := congrArg (Radix.signedValue 10) hsigned
    rw [Radix.signedValue_signed (by decide) (by decide),
      Radix.signedValue_signed (by decide) (by decide)] at hvalue
    have hlt := filesize_lt file
    rw [hvalue] at hlt hsize
    exact ⟨hopens, by exact_mod_cast hsize, by exact_mod_cast hlt⟩
  · rintro ⟨hopens, hpos, hlt⟩
    have hfilesize := filesize_of_lt hlt
    have hsize : 0 < filesize file := by
      rw [hfilesize]
      exact_mod_cast hpos
    refine ⟨⟨hopens, hsize⟩, ?_⟩
    rw [replies_serveStatic hopens hsize, response_eq, hfilesize, Int.toNat_natCast,
      List.take_length]

/-- A request for a file. -/
theorem doit_file {files : Files} {f : Frame} {input uri : List UInt8} (h : Asks f input uri)
    (hfits : Fits uri) (hstatic : ¬ text "cgi-bin" <:+: uri) {file : File}
    (hfile : files (target uri).filename = some file) (hallows : file.Allows (target uri)) :
    doit files f input = serveStatic (target uri).filename file := by
  obtain ⟨g, isStatic, hparsed, heq⟩ := h.doit files hfits
  have hnone : (target uri).queryString = none := by
    rw [target, if_neg hstatic]
    split_ifs <;> rfl
  have htrue : isStatic = true := by
    rw [hparsed.isStatic, hnone]
    rfl
  have hmode := (hparsed.allows file).mp hallows
  rw [htrue, if_pos rfl] at hmode
  rw [heq, hparsed.respond, hfile, htrue]
  simp only [if_true]
  rw [if_pos hmode]

/-- **The answer to a request for a file** is the file, whole, exactly when it can be opened, is
not empty, and its length is an `int`. -/
theorem static_complete_iff {files : Files} {f : Frame} {input uri : List UInt8}
    (h : Asks f input uri) (hfits : Fits uri) (hstatic : ¬ text "cgi-bin" <:+: uri) {file : File}
    (hfile : files (target uri).filename = some file) (hallows : file.Allows (target uri)) :
    ((doit files f input).result = .ok () ∧ replies (doit files f input).events =
      response (target uri).filename file.content) ↔
      file.opens = true ∧ 0 < file.content.length ∧ file.content.length < 2 ^ 31 := by
  rw [doit_file h hfits hstatic hfile hallows]
  exact serveStatic_complete_iff _ _

/-- Arrays of zeroes. -/
def blank : Frame := ⟨fun _ => 0, fun _ => 0, fun _ => 0, fun _ => 0, fun _ => 0, fun _ => 0⟩

/-- One page. -/
def onePage : Files := fun name =>
  if name = text "./home.html" then some ⟨true, true, false, true, text "hello\n"⟩ else none

/-- A request for the page. -/
theorem asks_home : Asks blank (text "GET / HTTP/1.0\r\n\r\n") (text "/") := by
  refine ⟨by decide +kernel, by decide +kernel, .inl ⟨[], [], [], ?_⟩, by decide +kernel⟩
  exact ⟨by decide +kernel, .inl rfl, List.not_mem_nil, dvd_zero _⟩

/-- The page is sent. -/
theorem static_complete_home :
    (doit onePage blank (text "GET / HTTP/1.0\r\n\r\n")).result = .ok () ∧
      replies (doit onePage blank (text "GET / HTTP/1.0\r\n\r\n")).events =
        response (target (text "/")).filename (text "hello\n") :=
  (@static_complete_iff onePage blank (text "GET / HTTP/1.0\r\n\r\n") (text "/") asks_home
    ⟨by decide +kernel, by decide +kernel⟩ (by decide +kernel)
    ⟨true, true, false, true, text "hello\n"⟩ (by decide +kernel) ⟨rfl, by decide +kernel⟩).mpr
      ⟨rfl, by decide +kernel, by decide +kernel⟩

/-- Without the blank line the server waits for ever. -/
example : (doit onePage blank (text "GET / HTTP/1.0\r\n")).result = .error .hang := by
  decide +kernel

end Tiny
