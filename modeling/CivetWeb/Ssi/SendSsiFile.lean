import CivetWeb.Files.InterpretUri

namespace CivetWeb

/-! ### Server side includes -/

abbrev LT : Byte := 60
abbrev GT : Byte := 62

/-- What the functions for `.shtml` files use: the files, two options of the domain, and what a command
prints, if it can be started. -/
structure SsiWorld where
  fs : FileView
  documentRoot : List Byte
  ssiExtensions : List Byte
  popen : List Byte → Option (List Byte)

/-- `sscanf` of a string in quotes behind a literal, at most `width` bytes of it; white space may be in
front. -/
def scanQuoted (literal : List Byte) (width : Nat) (tag : List Byte) : Option (List Byte) :=
  let s := (cstr tag).dropWhile isspace
  let word := ((s.drop literal.length).takeWhile (· != QUOTE)).take width
  if literal.isPrefixOf s ∧ word ≠ [] then some word else none

/-- The path of an included file; `none` for a tag without a file name, or a path that is too long. -/
def includePath (w : SsiWorld) (ssi tag : List Byte) : Option (List Byte) :=
  let (path, truncated) :=
    match scanQuoted (ascii "virtual=\"") 511 tag, scanQuoted (ascii "abspath=\"") 511 tag,
      (scanQuoted (ascii "file=\"") 511 tag).or (scanQuoted (ascii "\"") 511 tag) with
    | some fileName, _, _ => mgSnprintf 512 (w.documentRoot ++ SLASH :: fileName)
    | none, some fileName, _ => mgSnprintf 512 fileName
    | none, none, some fileName =>
      let (path, truncated) := mgSnprintf 512 ssi
      if truncated then (path, true)
      else
        let directory := if SLASH ∈ path then path.rdropWhile (· != SLASH) else path
        let (name, truncated) := mgSnprintf (512 - directory.length) fileName
        (directory ++ name, truncated)
    | none, none, none => ([], true)
  if truncated then none else some path

/-- `do_ssi_include`, with `send_ssi_file` for the files that are to be processed: what it sends. -/
def doSsiInclude (w : SsiWorld) (sendSsiFile : List Byte → List Byte → Nat → Option (List Byte))
    (ssi tag : List Byte) (includeLevel : Nat) : Option (List Byte) :=
  match includePath w ssi tag with
  | none => some []
  | some path =>
    match mgFopenRead w.fs path with
    | none => some []
    | some content =>
      if (matchPrefixLen w.ssiExtensions path).any (0 < ·) then sendSsiFile path content (includeLevel + 1)
      else some content

def doSsiExec (w : SsiWorld) (tag : List Byte) : List Byte :=
  match scanQuoted [QUOTE] 1023 tag with
  | none => []
  | some cmd => (w.popen cmd).getD []

/-- What is sent for the tag in the buffer. -/
def ssiCommand (w : SsiWorld) (sendSsiFile : List Byte → List Byte → Nat → Option (List Byte)) (path : List Byte)
    (includeLevel : Nat) (buf : List Byte) : Option (List Byte) :=
  if 12 < buf.length ∧ (buf.drop 5).take 7 = ascii "include" then
    doSsiInclude w sendSsiFile path (buf.drop 12) (includeLevel + 1)
  else if 9 < buf.length ∧ (buf.drop 5).take 4 = ascii "exec" then some (doSsiExec w (buf.drop 9))
  else some []

/-- The loop of `send_ssi_file` over the bytes of a file: what it sends, with all writes succeeding. -/
def ssiLoop (command : List Byte → Option (List Byte)) :
    List Byte → List Byte → Bool → Bool → Option (List Byte)
  | [], buf, _, _ => some buf
  | ch :: rest, buf, inTag, inSsiTag =>
    if inTag then
      if ch = GT then
        let buf := buf ++ [GT]
        if inSsiTag then (command buf).bind fun out => (ssiLoop command rest [] false false).map (out ++ ·)
        else (ssiLoop command rest [] false inSsiTag).map (buf ++ ·)
      else
        let buf := buf ++ [ch]
        let inSsiTag := inSsiTag || (buf.length == 5 && buf == ascii "<!--#")
        -- the tag is too large
        if MG_BUF_LEN < buf.length + 2 then some []
        else ssiLoop command rest buf true inSsiTag
    else if ch = LT then (ssiLoop command rest [LT] true inSsiTag).map (buf ++ ·)
    else
      let buf := buf ++ [ch]
      if buf.length = MG_BUF_LEN then (ssiLoop command rest [] false inSsiTag).map (buf ++ ·)
      else ssiLoop command rest buf false inSsiTag

/-- `send_ssi_file` on a file with this content, calls nested no deeper than the first argument: what is
sent, or `none`. -/
def sendSsiFile (w : SsiWorld) : Nat → List Byte → List Byte → Nat → Option (List Byte)
  | 0, _, _, _ => none
  | depth + 1, path, content, includeLevel =>
    if 10 < includeLevel then some []
    else ssiLoop (ssiCommand w (sendSsiFile w depth) path includeLevel) content [] false false

end CivetWeb
