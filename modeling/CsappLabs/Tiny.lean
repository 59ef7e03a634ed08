/-
# The Tiny web server

`tiny.c` is the origin server that comes with the proxy.  It serves one connection after the
other: `doit` reads a request line and skips the headers, `parse_uri` makes a file name of the
URI, and the file is sent, or a CGI program is run.

The arrays on the stack hold what was there before the call until they are written.  The files
are what `stat`, `open` and `mmap` see of them.  Writes and `fork` succeed, and what is printed
on the standard output is left out; what a CGI program does with the connection is not part of
the server.
-/
import CsappLabs.HeaderLoop
import CsappLabs.Upstream
import CsappLabs.Radix

open Effects Effects.Prog CString Relay
open Proxy (crlf slash)

namespace Tiny

/-! ## The world -/

/-- What is sent to the client, and the CGI programs that are run. -/
inductive Event : Type where
  | reply (s : List UInt8) : Event
  | execve (filename queryString : List UInt8) : Event
  deriving DecidableEq, Repr

abbrev Run (α : Type) : Type := Prog Event Proxy.Stop α

/-- A file: `S_ISREG`, `S_IRUSR` and `S_IXUSR` of its mode, whether it can be opened, and its
bytes. -/
structure File where
  isReg : Bool
  canRead : Bool
  canExecute : Bool
  opens : Bool
  content : List UInt8
  deriving DecidableEq, Repr

/-- The files by their names. -/
abbrev Files : Type := List UInt8 → Option File

/-- The arrays of `doit`, and `buf` of `read_requesthdrs`. -/
structure Frame where
  method : ℕ → UInt8
  uri : ℕ → UInt8
  version : ℕ → UInt8
  filename : ℕ → UInt8
  cgiargs : ℕ → UInt8
  hdrs : ℕ → UInt8

/-! ## The program -/

def questionMark : UInt8 := 63

/-- `sprintf` into `buf`, and `Rio_writen`. -/
def send (s : List UInt8) : Run Unit :=
  if s.length < MAXLINE then emit (.reply s) else stop .crash

/-- The string in an array of `doit`. -/
def readString (b : ℕ → UInt8) : Run (List UInt8) := require .crash (stringAt MAXLINE b 0)

/-- `clienterror`. -/
def clienterror (cause errnum shortmsg longmsg : List UInt8) : Run Unit := do
  send (text "HTTP/1.0 " ++ errnum ++ text " " ++ shortmsg ++ text "\r\n")
  send (text "Content-type: text/html\r\n\r\n")
  send (text "<html><title>Tiny Error</title>")
  send (text "<body bgcolor=ffffff>\r\n")
  send (errnum ++ text ": " ++ shortmsg ++ text "\r\n")
  send (text "<p>" ++ longmsg ++ text ": " ++ cause ++ text "\r\n")
  send (text "<hr><em>The Tiny Web server</em>\r\n")

/-- `sscanf(buf, "%s %s %s", method, uri, version)`. -/
def scanRequest (f : Frame) (buf : List UInt8) : Frame :=
  match words 3 (cstring buf) with
  | [] => f
  | [m] => { f with method := strcpy f.method m }
  | [m, u] => { f with method := strcpy f.method m, uri := strcpy f.uri u }
  | m :: u :: v :: _ =>
      { f with method := strcpy f.method m, uri := strcpy f.uri u, version := strcpy f.version v }

/-- `Rio_readlineb(rp, buf, MAXLINE)`: at the end of the input the buffer stays as it was. -/
def readLine (buf input : List UInt8) : List UInt8 × List UInt8 :=
  let r := rioReadlineb MAXLINE input
  if r.1.length = 0 then (buf, r.2) else r

/-- The loop of `read_requesthdrs`, for a number of rounds. -/
def hdrsLoop : ℕ → List UInt8 → List UInt8 → Run (List UInt8)
  | 0, _, _ => stop .hang
  | fuel + 1, buf, input =>
      if cstring buf = crlf then pure input
      else
        let r := readLine buf input
        hdrsLoop fuel r.1 r.2

/-- `read_requesthdrs`, and the input behind the headers.  Every round takes a byte, until the
input is at its end and nothing changes any more. -/
def readRequesthdrs (hdrs : ℕ → UInt8) (input : List UInt8) : Run (List UInt8) :=
  let r := rioReadlineb MAXLINE input
  if r.1.length = 0 then do
    -- `buf` was never written
    let buf ← readString hdrs
    hdrsLoop (r.2.length + 1) buf r.2
  else hdrsLoop (r.2.length + 1) r.1 r.2

/-- `strcat`, into an array of `MAXLINE` characters. -/
def strcat (b : ℕ → UInt8) (s : List UInt8) : Option (ℕ → UInt8) := do
  let t ← stringAt MAXLINE b 0
  if t.length + s.length < MAXLINE then some (putAt b t.length (s ++ [0])) else none

/-- The array `filename` in the static branch of `parse_uri`. -/
def staticName (filename : ℕ → UInt8) (uri : List UInt8) : Option (ℕ → UInt8) := do
  let filename ← strcat (strcpy filename (text ".")) uri
  -- `uri[strlen(uri) - 1]`
  let last ← uri.getLast?
  if last = slash then strcat filename (text "home.html") else some filename

/-- The array `uri` in the dynamic branch, cut at the question mark, and `cgiargs`. -/
def splitArgs (f : Frame) (uri : List UInt8) : Frame :=
  match strchr uri questionMark with
  | some i =>
      { f with
        cgiargs := strcpy f.cgiargs (uri.drop (i + 1))
        uri := Function.update f.uri i 0 }
  | none => { f with cgiargs := strcpy f.cgiargs [] }

/-- `parse_uri(uri, filename, cgiargs)`, and what it returns: whether the content is static. -/
def parseUri (f : Frame) : Option (Frame × Bool) := do
  let uri ← stringAt MAXLINE f.uri 0
  if (strstr uri (text "cgi-bin")).isNone then
    let filename ← staticName f.filename uri
    some ({ f with cgiargs := strcpy f.cgiargs [], filename := filename }, true)
  else
    let f := splitArgs f uri
    let uri ← stringAt MAXLINE f.uri 0
    let filename ← strcat (strcpy f.filename (text ".")) uri
    some ({ f with filename := filename }, false)

/-- `get_filetype`. -/
def getFiletype (filename : List UInt8) : List UInt8 :=
  if (strstr filename (text ".html")).isSome then text "text/html"
  else if (strstr filename (text ".gif")).isSome then text "image/gif"
  else if (strstr filename (text ".png")).isSome then text "image/png"
  else if (strstr filename (text ".jpg")).isSome then text "image/jpeg"
  else text "text/plain"

/-- `st_size` as the parameter `int filesize`. -/
def filesize (file : File) : ℤ := Int.bmod file.content.length (2 ^ 32)

/-- `mmap` of the first `filesize` bytes; a length of zero is invalid, and a negative one is
larger than the address space. -/
def mmap (file : File) : Option (List UInt8) :=
  if 0 < filesize file then some (file.content.take (filesize file).toNat) else none

/-- `serve_static`. -/
def serveStatic (filename : List UInt8) (file : File) : Run Unit := do
  send (text "HTTP/1.0 200 OK\r\n")
  send (text "Server: Tiny Web Server\r\n")
  send (text "Content-length: " ++ Radix.signed 10 (filesize file) ++ crlf)
  send (text "Content-type: " ++ getFiletype filename ++ crlf ++ crlf)
  if file.opens then
    let srcp ← require .exit (mmap file)
    emit (.reply srcp)
  else stop .exit

/-- `serve_dynamic`. -/
def serveDynamic (filename cgiargs : List UInt8) : Run Unit := do
  send (text "HTTP/1.0 200 OK\r\n")
  send (text "Server: Tiny Web Server\r\n")
  emit (.execve filename cgiargs)

/-- The end of `doit`, from `stat` on. -/
def respond (files : Files) (f : Frame) (isStatic : Bool) : Run Unit := do
  let filename ← readString f.filename
  match files filename with
  | none => clienterror filename (text "404") (text "Not found") (text "Tiny couldn't find this file")
  | some file =>
      if isStatic then
        if file.isReg ∧ file.canRead then serveStatic filename file
        else
          clienterror filename (text "403") (text "Forbidden") (text "Tiny couldn't read the file")
      else if file.isReg ∧ file.canExecute then
        let cgiargs ← readString f.cgiargs
        serveDynamic filename cgiargs
      else
        clienterror filename (text "403") (text "Forbidden")
          (text "Tiny couldn't run the CGI program")

/-- `doit`, on what the client sends before it closes its end. -/
def doit (files : Files) (f : Frame) (input : List UInt8) : Run Unit :=
  let r := rioReadlineb MAXLINE input
  if r.1.length = 0 then pure ()
  else
    let f := scanRequest f r.1
    if strcasecmp f.method 0 (text "GET") then do
      let _ ← readRequesthdrs f.hdrs r.2
      let (f, isStatic) ← require .crash (parseUri f)
      respond files f isStatic
    else do
      let method ← readString f.method
      clienterror method (text "501") (text "Not Implemented")
        (text "Tiny does not implement this method")

/-- A connection: the files, the stack, and the bytes of the client. -/
structure Connection where
  files : Files
  frame : Frame
  input : List UInt8

/-- The loop of `main`. -/
def serve : List Connection → Run Unit
  | [] => pure ()
  | c :: cs => do
      doit c.files c.frame c.input
      serve cs

end Tiny
