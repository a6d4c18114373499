import Mathlib.Data.List.Infix
import ReadingComment.Upload.Paths

/-!
# Uploading a file (`src/code_mine/http.py`)

`deal_post_data` copies lines to the new file, one line behind the one it reads, so that the line
end in front of the boundary can be left out. A connection that has ended gives empty lines. What
the disposition line names, and whether that file can be created, is up to the environment
(`create`).
-/

namespace Upload

open List

/-- The lines of a text, with their ends. -/
def linesOf : List Char → List (List Char)
  | [] => []
  | c :: s =>
    if c = '\n' then [c] :: linesOf s
    else match linesOf s with
      | [] => [[c]]
      | l :: ls => (c :: l) :: ls

/-- `self.rfile.readline()`; the lines behind it are left. -/
def readline (rfile : List (List Char)) : List Char := rfile.headD []

/-- `preline` without its end. -/
def chomp (preline : List Char) : List Char :=
  let preline := preline.dropLast
  if preline.getLast? = some '\r' then preline.dropLast else preline

/-- What `deal_post_data` reports, and what the new file has. -/
inductive Report where
  /-- `IndexError` -/
  | raised
  /-- `Content NOT begin with boundary` -/
  | noBoundary
  /-- a message about the name or about the file that cannot be created -/
  | noFile (info : List Char)
  /-- `Unexpect Ends of data.` -/
  | unexpectedEnd (written : List Char)
  | success (written : List Char)

structure Request where
  plisttext : List Char
  contentLength : ℤ
  body : List Char

def crlf : List Char := ['\r', '\n']

/-- A line, with its end. -/
structure Line where
  text : List Char
  one : linesOf text = [text]
  ended : text.getLast? = some '\n'

/-- A body with one file part. -/
structure Part where
  opening : Line
  disposition : Line
  contentType : Line
  content : List Char
  closing : List Char
  closing_one : linesOf closing = [closing]

def Part.body (p : Part) : List Char :=
  p.opening.text ++
    (p.disposition.text ++ (p.contentType.text ++ (crlf ++ (p.content ++ crlf ++ p.closing))))

/-! ## Lines -/

variable {boundary : List Char}

variable {ls : List (List Char)}

/-- What the loop reports of lines that are as long as was announced. -/
def copied (boundary : List Char) : List (List Char) → List Char → List Char → Bool × List Char
  | [], _, out => (false, out)
  | l :: ls, pre, out =>
    if boundary <:+: l then (true, out ++ chomp pre) else copied boundary ls l (out ++ pre)

variable {create : List Char → Except (List Char) Unit} {plisttext pre boundary : List Char}
  {post : List (List Char)}

end Upload
