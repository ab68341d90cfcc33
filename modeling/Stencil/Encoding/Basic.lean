import Stencil.Encoding.CodeTable
import Stencil.Encoding.Utf16

/-!
# Source encodings

A template source may be written in UTF-8, in UTF-16, in one of the single byte encodings or in one
of the multi-byte encodings of East Asia. The encoding is named by the template itself, so its name
is matched loosely: letter case and the usual separators do not count. The first part of ISO 8859 is
read as Windows code page 1252, of which it is a part, because sources that claim the former usually
mean the latter.

The multi-byte encodings have large tables, and some of them have states. Decoders for them come
from outside (`Encoding.Decoders`) and nothing is assumed of them, so that whatever is said of
sources holds with any decoders.

## Main definitions

* `Encoding` – the encodings; `Encoding.find?` – by name;
* `Encoding.Decoders` – decoders for the multi-byte encodings;
* `Encoding.decode` – a source in a named encoding as UTF-8;
* `Encoding.sniff` – the encoding announced by a byte order mark.
-/

namespace Stencil

/-- The multi-byte encodings in which a template source can be written. -/
inductive Encoding.Multibyte where
  /-- Extended Unix code for Japanese. -/
  | eucJp
  /-- Shift JIS as in Windows code page 932. -/
  | shiftJis
  /-- ISO 2022 for Japanese, with escape sequences. -/
  | iso2022Jp
  /-- Traditional Chinese. -/
  | big5
  /-- Extended Unix code for Korean. -/
  | eucKr
  /-- Simplified Chinese. -/
  | gbk
  /-- Simplified Chinese, extended to all of Unicode. -/
  | gb18030
  /-- Simplified Chinese in seven bits, with escape sequences. -/
  | hzGb2312
  deriving DecidableEq, Repr

/-- The encodings in which a template source can be written. -/
inductive Encoding where
  /-- UTF-8, which is passed through unchecked. -/
  | utf8
  /-- UTF-16 with an optional byte order mark. -/
  | utf16
  /-- UTF-16 in a fixed byte order, in which a mark is an ordinary character. -/
  | utf16In (order : Encoding.ByteOrder)
  /-- A single byte encoding. -/
  | table (t : Encoding.CodeTable)
  /-- A multi-byte encoding. -/
  | multibyte (m : Encoding.Multibyte)

namespace Encoding

/-- Decoders for the multi-byte encodings: the UTF-8 form of a byte sequence, or the reason why
there is none. -/
class Decoders where
  /-- What a byte sequence stands for. -/
  toUtf8 : Multibyte → Text → Except Text Text

/-- Decoders for want of any. The executable has these, as long as nobody brings others. -/
instance (priority := low) absent : Decoders := ⟨fun _ _ => .error "no decoder"⟩

/-- Why a source could not be decoded. -/
inductive DecodingError where
  /-- The name could not be matched with an encoding. -/
  | unknown (name : Text)
  /-- The decoder of the encoding refused. -/
  | refused (name reason : Text)
  deriving DecidableEq, Repr

/-- The message of the failure. -/
def DecodingError.message : DecodingError → Text
  | unknown name => "encoding " ++ name.quoted ++ ": unknown encoding"
  | refused name reason => "failed to decode source as " ++ name.quoted ++ ": " ++ reason

/-- A name without separators and in lower case, so that spellings of one name agree. -/
def normalize (name : Text) : Text :=
  (name.filter fun b => b != 0x2d && b != 0x5f && b != 0x20 && b != 0x2e).map asciiLower

/-- The encodings under their normalized names. -/
def registry : List (String × Encoding) :=
  [("utf8", .utf8), ("utf16", .utf16), ("utf16be", .utf16In .big), ("utf16le", .utf16In .little),
   ("eucjp", .multibyte .eucJp), ("shiftjis", .multibyte .shiftJis), ("sjis", .multibyte .shiftJis),
   ("cp932", .multibyte .shiftJis), ("jis", .multibyte .iso2022Jp),
   ("iso2022jp", .multibyte .iso2022Jp), ("big5", .multibyte .big5), ("euckr", .multibyte .eucKr),
   ("gbk", .multibyte .gbk), ("gb18030", .multibyte .gb18030), ("hzgb2312", .multibyte .hzGb2312),
   ("cp437", .table .codePage437), ("cp866", .table .codePage866),
   ("iso88591", .table .windows1252), ("latin1", .table .windows1252),
   ("iso88592", .table .iso8859Part2), ("iso88593", .table .iso8859Part3),
   ("iso88594", .table .iso8859Part4), ("iso88595", .table .iso8859Part5),
   ("iso88596", .table .iso8859Part6), ("iso88597", .table .iso8859Part7),
   ("iso88598", .table .iso8859Part8), ("iso885910", .table .iso8859Part10),
   ("iso885913", .table .iso8859Part13), ("iso885914", .table .iso8859Part14),
   ("iso885915", .table .iso8859Part15), ("iso885916", .table .iso8859Part16),
   ("koi8r", .table .koi8R), ("koi8u", .table .koi8U),
   ("macintosh", .table .macRoman), ("macintoshcyrillic", .table .macCyrillic),
   ("windows874", .table .windows874), ("windows1250", .table .windows1250),
   ("windows1251", .table .windows1251), ("windows1252", .table .windows1252),
   ("windows1253", .table .windows1253), ("windows1254", .table .windows1254),
   ("windows1255", .table .windows1255), ("windows1256", .table .windows1256),
   ("windows1257", .table .windows1257), ("windows1258", .table .windows1258),
   ("xuserdefined", .table .userDefined)]

/-- The encoding of the given name. -/
def find? (name : Text) : Option Encoding :=
  (registry.find? fun e => Text.ofString e.1 == normalize name).map Prod.snd

/-- Whether the name means UTF-8; no name at all does too. -/
def isUtf8 (name : Text) : Bool := normalize name == [] || normalize name == "utf8"

/-- The UTF-8 form of a byte sequence in this encoding, or the reason why there is none. -/
def toUtf8 [Decoders] (e : Encoding) (t : Text) : Except Text Text :=
  match e with
  | utf8 => .ok t
  | utf16 =>
    let (order, rest) := takeByteOrderMark t
    .ok (Text.ofChars (decodeUtf16 order rest))
  | utf16In order => .ok (Text.ofChars (decodeUtf16 order t))
  | table c => .ok (Text.ofChars (t.map c.char))
  | multibyte m => Decoders.toUtf8 m t

/-- The UTF-8 form of a byte sequence in the named encoding. -/
def decode [Decoders] (name t : Text) : Except DecodingError Text :=
  if isUtf8 name then .ok t
  else
    match find? name with
    | some e => (e.toUtf8 t).mapError (.refused name)
    | none => .error (.unknown name)

/-- The encoding announced by a byte order mark, and how many bytes of the mark are to be dropped.
A UTF-16 mark is left in place because decoding takes it. -/
def sniff : Text → Text × Nat
  | 0xef :: 0xbb :: 0xbf :: _ => ("utf-8", 3)
  | 0xfe :: 0xff :: _ => ("utf-16", 0)
  | 0xff :: 0xfe :: _ => ("utf-16", 0)
  | _ => ([], 0)

end Encoding

end Stencil
