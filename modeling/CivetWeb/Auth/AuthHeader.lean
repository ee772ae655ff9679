import CivetWeb.Conn.KeepAlive
import CivetWeb.Format

namespace CivetWeb

/-- The loop of `skip_quoted` behind a delimiter that may be quoted: a quoted one belongs
to the word. -/
def quotedWord (delimiters : List Byte) (quotechar : Byte) :
    Nat → List Byte → List Byte → List Byte × List Byte
  | 0, word, rest => (word, rest)
  | n + 1, word, rest =>
    if word.getLast? = some quotechar then
      match rest with
      | [] => (word.dropLast, [])
      | d :: rest =>
        quotedWord delimiters quotechar n
          (word.dropLast ++ d :: rest.takeWhile (!delimiters.contains ·))
          (rest.dropWhile (!delimiters.contains ·))
    else (word, rest)

/-- `skip_quoted`: the word at the head of a string, and the string behind it. -/
def skipQuoted (buf delimiters whitespace : List Byte) (quotechar : Byte) :
    List Byte × List Byte :=
  let (word, rest) := quotedWord delimiters quotechar (buf.length + 1)
    (buf.takeWhile (!delimiters.contains ·)) (buf.dropWhile (!delimiters.contains ·))
  (word, rest.tail.dropWhile whitespace.contains)

structure AuthHeader where
  user : Option (List Byte)
  type : Nat
  plainPassword : Option (List Byte)
  uri : Option (List Byte)
  cnonce : Option (List Byte)
  response : Option (List Byte)
  qop : Option (List Byte)
  nc : Option (List Byte)
  nonce : Option (List Byte)
  deriving DecidableEq, Repr

/-- The structure after its `memset`. -/
def AuthHeader.zero : AuthHeader := ⟨none, 0, none, none, none, none, none, none, none⟩

def AuthHeader.set (h : AuthHeader) (name value : List Byte) : AuthHeader :=
  if name = ascii "username" then { h with user := some value }
  else if name = ascii "cnonce" then { h with cnonce := some value }
  else if name = ascii "response" then { h with response := some value }
  else if name = ascii "uri" then { h with uri := some value }
  else if name = ascii "qop" then { h with qop := some value }
  else if name = ascii "nc" then { h with nc := some value }
  else if name = ascii "nonce" then { h with nonce := some value }
  else h

abbrev BACKSLASH : Byte := 92

/-- The value of a field: between quotes, or up to a comma or space. -/
def authValue (s : List Byte) : List Byte × List Byte :=
  if deref s = QUOTE then
    let (value, s) := skipQuoted s.tail [QUOTE] [SP] BACKSLASH
    (value, if deref s = COMMA then s.tail else s)
  else skipQuoted s [COMMA, SP] [SP] NUL

/-- The loop of `parse_auth_header` over the fields. Each turn reads a byte at least. -/
def authFields : Nat → List Byte → AuthHeader → AuthHeader
  | 0, _, h => h
  | n + 1, s, h =>
    let (name, s) := skipQuoted (s.dropWhile isspace) [61] [SP] NUL
    let (value, s) := authValue s
    if name = [] then h else authFields n s (h.set name value)

def b64reverse (letter : Byte) : Nat :=
  if 65 ≤ letter && letter ≤ 90 then letter.toNat - 65
  else if 97 ≤ letter && letter ≤ 122 then letter.toNat - 97 + 26
  else if 48 ≤ letter && letter ≤ 57 then letter.toNat - 48 + 52
  else if letter = 43 then 62
  else if letter = 47 then 63
  else if letter = 61 then 255
  else 254

/-- The loop of `mg_base64_decode`; a group that is cut short ends in a NUL, an error. -/
def base64Groups : List Byte → Option (List Byte)
  | [] => some []
  | l0 :: l1 :: l2 :: l3 :: src =>
    let (a, b, c, d) := (b64reverse l0, b64reverse l1, b64reverse l2, b64reverse l3)
    if 254 ≤ a ∨ 254 ≤ b ∨ c = 254 ∨ d = 254 then none
    else
      let dst :=
        UInt8.ofNat (a * 4 + b / 16) ::
          if c = 255 then []
          else UInt8.ofNat (b * 16 + c / 4) :: if d = 255 then [] else [UInt8.ofNat (c * 64 + d)]
      (base64Groups src).map (dst ++ ·)
  | _ => none

/-- `mg_base64_decode` into a buffer of `dstLen` bytes; `none` is anything but its -1. -/
def mgBase64Decode (src : List Byte) (dstLen : Nat) : Option (List Byte) :=
  (base64Groups src).bind fun dst => if dstLen < dst.length + 1 then none else some dst

/-- What a domain's nonces are made of: `ctx->start_time` and the mask. -/
structure NonceKey where
  startTime : BitVec 64
  authNonceMask : BitVec 64
  deriving DecidableEq, Repr

/-- The nonce that is drawn when `nonceCount` were drawn before it. -/
def NonceKey.nonce (key : NonceKey) (nonceCount : Nat) : BitVec 64 :=
  (key.startTime + BitVec.ofNat 64 nonceCount) ^^^ key.authNonceMask

/-- The nonce check of `parse_auth_header`. -/
def nonceCheck (key : NonceKey) (nonceCount : Nat) (nonce : List Byte) : Bool :=
  let (value, s) := strtoul 10 (nonce ++ [NUL])
  if deref s ≠ NUL then false
  else
    let nonce := BitVec.ofNat 64 value ^^^ key.authNonceMask
    if nonce < key.startTime then false
    else if key.startTime + BitVec.ofNat 64 nonceCount ≤ nonce then false
    else true

/-- `parse_auth_header`: what it returns, and the structure that it fills. -/
def parseAuthHeader (key : NonceKey) (nonceCount : Nat) (conn : Conn) (bufSize : Nat) :
    Bool × AuthHeader :=
  match mgGetHeader conn (ascii "Authorization") with
  | none => (false, .zero)
  | some ah =>
    if mgStrncasecmp ah (ascii "Basic ") 6 = 0 then
      match mgBase64Decode (ah.drop 6) bufSize with
      | none => (false, .zero)
      | some buf =>
        let buf := cstr buf
        if COLON ∈ buf then
          (true, { AuthHeader.zero with
            user := some (buf.takeWhile (· != COLON)), type := 1,
            plainPassword := some (buf.dropWhile (· != COLON)).tail })
        else (false, .zero)
    else if mgStrncasecmp ah (ascii "Digest ") 7 = 0 then
      let buf := mgStrlcpy (ah.drop 7) bufSize
      let h := authFields (buf.length + 1) buf { AuthHeader.zero with type := 2 }
      match h.nonce with
      | none => (false, h)
      | some nonce => (nonceCheck key nonceCount nonce && h.user.isSome, h)
    else (false, .zero)

theorem quotedWord_length (delimiters : List Byte) (quotechar : Byte) (n : Nat)
    (word rest : List Byte) :
    (quotedWord delimiters quotechar n word rest).1.length +
      (quotedWord delimiters quotechar n word rest).2.length ≤ word.length + rest.length := by
  induction n generalizing word rest with
  | zero => exact Nat.le_refl _
  | succ n ih =>
    unfold quotedWord
    split_ifs with hquote
    · cases rest with
      | nil => simp
      | cons d rest =>
        have hlast : word ≠ [] := by
          rintro rfl
          simp at hquote
        have hpos := List.length_pos_iff.mpr hlast
        have hsplit := congrArg List.length
          (List.takeWhile_append_dropWhile (p := (!delimiters.contains ·)) (l := rest))
        refine (ih _ _).trans ?_
        simp only [List.length_append, List.length_dropLast, List.length_cons] at hsplit ⊢
        omega
    · exact Nat.le_refl _

theorem skipQuoted_length (buf delimiters whitespace : List Byte) (quotechar : Byte) :
    (skipQuoted buf delimiters whitespace quotechar).1.length +
      (skipQuoted buf delimiters whitespace quotechar).2.length ≤ buf.length := by
  have hword := quotedWord_length delimiters quotechar (buf.length + 1)
    (buf.takeWhile (!delimiters.contains ·)) (buf.dropWhile (!delimiters.contains ·))
  have hsplit := congrArg List.length
    (List.takeWhile_append_dropWhile (p := (!delimiters.contains ·)) (l := buf))
  rw [List.length_append] at hsplit
  rw [hsplit] at hword
  rw [skipQuoted]
  dsimp only
  refine (Nat.add_le_add_left ?_ _).trans hword
  exact (List.dropWhile_suffix _).length_le.trans (by rw [List.length_tail]; omega)

theorem authValue_length (s : List Byte) : (authValue s).2.length ≤ s.length := by
  rw [authValue]
  split_ifs with hquote
  · have hword := skipQuoted_length s.tail [QUOTE] [SP] BACKSLASH
    rw [List.length_tail] at hword
    dsimp only
    split_ifs
    · rw [List.length_tail]
      omega
    · omega
  · have hword := skipQuoted_length s [COMMA, SP] [SP] NUL
    omega

/-- As many turns as there are bytes are enough for the loop over the fields. -/
theorem authFields_turns (n m : Nat) (s : List Byte) (h : AuthHeader) (hn : s.length < n)
    (hm : s.length < m) : authFields n s h = authFields m s h := by
  induction n generalizing m s h with
  | zero => omega
  | succ n ih =>
    obtain ⟨m, rfl⟩ : ∃ k, m = k + 1 := ⟨m - 1, by omega⟩
    obtain ⟨name, s1, hname⟩ : ∃ name s1, skipQuoted (s.dropWhile isspace) [61] [SP] NUL = (name, s1) :=
      ⟨_, _, rfl⟩
    have hword := skipQuoted_length (s.dropWhile isspace) [61] [SP] NUL
    have hspaces := (List.dropWhile_suffix (l := s) isspace).length_le
    have hvalue := authValue_length s1
    simp only [hname] at hword
    rw [authFields, authFields]
    simp only [hname]
    split_ifs with hnil
    · rfl
    · have hpos := List.length_pos_iff.mpr hnil
      exact ih m _ _ (by omega) (by omega)

end CivetWeb
