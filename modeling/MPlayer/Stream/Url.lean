import MPlayer.Stream.UrlEscape

/-!
# Splitting URLs

`url_new` escapes a URL and looks for its parts with searches for single characters that start
where the last part ended.  A pointer is the rest of the string that it points to, and two
pointers into the same string are compared by their places in it.

`url_redirect` puts the target of a redirection behind what is left of the URL it came from.
-/

namespace MPlayer

/-! ## The code -/

/-- `URL_t`. -/
structure Url where
  url : List UInt8
  noauthUrl : List UInt8
  protocol : List UInt8
  hostname : List UInt8
  file : List UInt8
  port : Nat
  username : Option (List UInt8)
  password : Option (List UInt8)
deriving DecidableEq

/-- Why `url_new` gives no URL: there is no protocol, or it is at a pointer into another string
than the one it is subtracted from, which is undefined. -/
inductive UrlFailure where
  | notUrl
  | otherString
deriving DecidableEq

/-- The first pointer is not NULL and in front of the second one. -/
def isBefore : Option Nat → Option Nat → Bool
  | some p, some q => p < q
  | _, _ => false

/-- `http_proxy` URLs carry another URL as their file. -/
def isProxy (url : Url) : Bool :=
  avStrcaseeq url.protocol (asciis "http_proxy") && (Lib.findSub (asciis "://") url.file).isSome

def getNoauthUrl (url : Url) : List UInt8 :=
  url.protocol ++ asciis "://" ++ url.hostname ++
    (if url.port ≠ 0 then ascii ':' :: printInt (toInt32 url.port) else []) ++ url.file

def getHttpProxyUrl (proxy : Url) (hostUrl : List UInt8) : List UInt8 :=
  asciis "http_proxy://" ++
    (match proxy.username with
      | some username => username ++ [ascii ':'] ++ proxy.password.getD [] ++ [ascii '@']
      | none => []) ++
    proxy.hostname ++ [ascii ':'] ++ printInt (toInt32 proxy.port) ++ [ascii '/'] ++ hostUrl

/-- The escapes of a string taken back in place. -/
def unescaped (s : List UInt8) : List UInt8 := cstr (urlUnescapeString s)

/-- The user name and the password in front of a host, and where the host begins. -/
def urlCredentials (ptr1 : List UInt8) : Option (List UInt8) × Option (List UInt8) × List UInt8 :=
  let ptr2 := Lib.findSub [ascii '@'] ptr1
  let ptr3 := Lib.findSub [ascii '/'] ptr1
  match if isBefore ptr3 ptr2 then none else ptr2 with
  | none => (none, none, ptr1)
  | some len =>
    match (Lib.findSub [ascii ':'] ptr1).filter (· < len) with
    | none => (some (unescaped (ptr1.take len)), none, ptr1.drop (len + 1))
    | some colon =>
      (some (unescaped (ptr1.take colon)),
        some (unescaped ((ptr1.drop (colon + 1)).take (len - colon - 1))),
        ptr1.drop (len + 1))

/-- Where the brackets of an IPv6 address end, if it is in front of the path. -/
def ipv6End (ptr1 : List UInt8) : Option Nat :=
  let ptr2 := Lib.findSub [ascii '['] ptr1
  let ptr3 := Lib.findSub [ascii ']'] ptr1
  let ptr4 := Lib.findSub [ascii '/'] ptr1
  if isBefore ptr2 ptr3 && (ptr4.isNone || isBefore ptr3 ptr4) then ptr3 else none

/-- The file: the path if it is longer than a slash. -/
def urlFile (ptr1 : List UInt8) : List UInt8 :=
  match Lib.findSub [ascii '/'] ptr1 with
  | none => [ascii '/']
  | some slash => if 1 < (ptr1.drop slash).length then ptr1.drop slash else [ascii '/']

/-- The port behind a host, or 0, and the length of what is in front of it. -/
def urlPort (ptr1 : List UInt8) (ptr2 : Option Nat) : Nat × Nat :=
  let ptr3 := Lib.findSub [ascii '/'] ptr1
  match if isBefore ptr3 ptr2 then none else ptr2 with
  | none => (0, ptr3.getD ptr1.length)
  | some colon => ((atoi (ptr1.drop (colon + 1)) % 0x100000000).toNat, colon)

/-- The host, the port and the file. -/
def urlHost (ptr1 : List UInt8) : List UInt8 × Nat × List UInt8 :=
  match ipv6End ptr1 with
  | none =>
    let r := urlPort ptr1 (Lib.findSub [ascii ':'] ptr1)
    (ptr1.take r.2, r.1, urlFile ptr1)
  | some bracket =>
    let colon := Lib.findSub [ascii ':'] (ptr1.drop bracket)
    let r := urlPort (ptr1.drop 1) (colon.map (· + (bracket - 1)))
    ((ptr1.drop 1).take (r.2 - 1), r.1, urlFile (ptr1.drop 1))

/-- The parts of an escaped URL whose protocol has this length. -/
def urlParts (escfilename : List UInt8) (pos1 : Nat) : Url :=
  let credentials := urlCredentials (escfilename.drop (pos1 + 3))
  let host := urlHost credentials.2.2
  let url : Url :=
    { url := escfilename, noauthUrl := [], protocol := escfilename.take pos1,
      hostname := host.1, file := host.2.2, port := host.2.1,
      username := credentials.1, password := credentials.2.1 }
  { url with noauthUrl := getNoauthUrl url }

def urlNew (url : List UInt8) : Except UrlFailure Url :=
  let escfilename := urlEscapeString url
  match Lib.findSub (asciis "://") escfilename with
  | none => if asciis "sip:" <+: escfilename then .error .otherString else .error .notUrl
  | some pos1 => .ok (urlParts escfilename pos1)

/-- The last place of a character. -/
def strrchr (s : List UInt8) (c : UInt8) : Option Nat :=
  (Lib.findSub [c] s.reverse).map fun i => s.length - 1 - i

/-- The slash that starts the path of a URL. -/
def pathSlash (url : List UInt8) : Option Nat :=
  (Lib.findSub (asciis "://") url).bind fun tmp =>
    (Lib.findSub [ascii '/'] (url.drop (tmp + 3))).map fun i => tmp + 3 + i

/-- A string cut behind a place in it. -/
def cutBehind (s : List UInt8) : Option Nat → List UInt8
  | some i => s.take (i + 1)
  | none => s

/-- The target of a redirection behind what is kept of the old URL. -/
def resolve (oldurl redir : List UInt8) : List UInt8 :=
  if redir.head? = some (ascii '/') then cutBehind oldurl (pathSlash oldurl) ++ redir.drop 1
  else if ascii '/' ∉ redir then cutBehind oldurl (strrchr oldurl (ascii '/')) ++ redir
  else redir

def urlRedirect (u : Url) (redir : List UInt8) : Except UrlFailure Url :=
  let proxy := isProxy u
  let newurl := resolve (if proxy then u.file.drop 1 else u.url) redir
  urlNew (if proxy then getHttpProxyUrl u newurl else newurl)

end MPlayer
