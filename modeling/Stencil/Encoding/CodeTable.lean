/-!
# Code tables

The single byte encodings. A table gives the characters of the bytes `80` to `FF`; the bytes below
are ASCII in all of them. A byte without a character, and a byte that a table assigns to a C1
control, has U+FFFD.

Each table is written as a string of 128 characters, in eight rows of sixteen.

## Main definitions

* `CodeTable`, `CodeTable.char` – a table and the character of a byte in it;
* one constant per table.
-/

namespace Stencil.Encoding

/-- The characters of the bytes from `80` on. -/
structure CodeTable where
  /-- The characters in the order of their bytes. -/
  upper : Array Char

namespace CodeTable

/-- The character of a byte. -/
def char (t : CodeTable) (b : UInt8) : Char :=
  if b < 0x80 then Char.ofNat b.toNat else t.upper.getD (b.toNat - 0x80) '\uFFFD'

/-- A row of bytes without characters. -/
def unassigned : String := String.ofList (List.replicate 16 '\uFFFD')

/-- A table given by its rows. -/
def ofRows (rows : List String) : CodeTable := ⟨(rows.flatMap String.toList).toArray⟩

/-- Code page 437. -/
def codePage437 : CodeTable := ofRows [
 "ÇüéâäàåçêëèïîìÄÅ",
 "ÉæÆôöòûùÿÖÜ¢£¥₧ƒ",
 "áíóúñÑªº¿⌐¬½¼¡«»",
 "░▒▓│┤╡╢╖╕╣║╗╝╜╛┐",
 "└┴┬├─┼╞╟╚╔╩╦╠═╬╧",
 "╨╤╥╙╘╒╓╫╪┘┌█▄▌▐▀",
 "αßΓπΣσµτΦΘΩδ∞φε∩",
 "≡±≥≤⌠⌡÷≈°∙·√ⁿ²■\u00a0"]

/-- Code page 866. -/
def codePage866 : CodeTable := ofRows [
 "АБВГДЕЖЗИЙКЛМНОП",
 "РСТУФХЦЧШЩЪЫЬЭЮЯ",
 "абвгдежзийклмноп",
 "░▒▓│┤╡╢╖╕╣║╗╝╜╛┐",
 "└┴┬├─┼╞╟╚╔╩╦╠═╬╧",
 "╨╤╥╙╘╒╓╫╪┘┌█▄▌▐▀",
 "рстуфхцчшщъыьэюя",
 "ЁёЄєЇїЎў°∙·√№¤■\u00a0"]

/-- ISO 8859, part 2. -/
def iso8859Part2 : CodeTable := ofRows [
 unassigned,
 unassigned,
 "\u00a0Ą˘Ł¤ĽŚ§¨ŠŞŤŹ\u00adŽŻ",
 "°ą˛ł´ľśˇ¸šşťź˝žż",
 "ŔÁÂĂÄĹĆÇČÉĘËĚÍÎĎ",
 "ĐŃŇÓÔŐÖ×ŘŮÚŰÜÝŢß",
 "ŕáâăäĺćçčéęëěíîď",
 "đńňóôőö÷řůúűüýţ˙"]

/-- ISO 8859, part 3. -/
def iso8859Part3 : CodeTable := ofRows [
 unassigned,
 unassigned,
 "\u00a0Ħ˘£¤\ufffdĤ§¨İŞĞĴ\u00ad\ufffdŻ",
 "°ħ²³´µĥ·¸ışğĵ½\ufffdż",
 "ÀÁÂ\ufffdÄĊĈÇÈÉÊËÌÍÎÏ",
 "\ufffdÑÒÓÔĠÖ×ĜÙÚÛÜŬŜß",
 "àáâ\ufffdäċĉçèéêëìíîï",
 "\ufffdñòóôġö÷ĝùúûüŭŝ˙"]

/-- ISO 8859, part 4. -/
def iso8859Part4 : CodeTable := ofRows [
 unassigned,
 unassigned,
 "\u00a0ĄĸŖ¤ĨĻ§¨ŠĒĢŦ\u00adŽ¯",
 "°ą˛ŗ´ĩļˇ¸šēģŧŊžŋ",
 "ĀÁÂÃÄÅÆĮČÉĘËĖÍÎĪ",
 "ĐŅŌĶÔÕÖ×ØŲÚÛÜŨŪß",
 "āáâãäåæįčéęëėíîī",
 "đņōķôõö÷øųúûüũū˙"]

/-- ISO 8859, part 5. -/
def iso8859Part5 : CodeTable := ofRows [
 unassigned,
 unassigned,
 "\u00a0ЁЂЃЄЅІЇЈЉЊЋЌ\u00adЎЏ",
 "АБВГДЕЖЗИЙКЛМНОП",
 "РСТУФХЦЧШЩЪЫЬЭЮЯ",
 "абвгдежзийклмноп",
 "рстуфхцчшщъыьэюя",
 "№ёђѓєѕіїјљњћќ§ўџ"]

/-- ISO 8859, part 6. -/
def iso8859Part6 : CodeTable := ofRows [
 unassigned,
 unassigned,
 "\u00a0\ufffd\ufffd\ufffd¤\ufffd\ufffd\ufffd\ufffd\ufffd\ufffd\ufffd،\u00ad\ufffd\ufffd",
 "\ufffd\ufffd\ufffd\ufffd\ufffd\ufffd\ufffd\ufffd\ufffd\ufffd\ufffd\u061b\ufffd\ufffd\ufffd\u061f",
 "\ufffd\u0621\u0622\u0623\u0624\u0625\u0626\u0627\u0628\u0629\u062a\u062b\u062c\u062d\u062e\u062f",
 "\u0630\u0631\u0632\u0633\u0634\u0635\u0636\u0637\u0638\u0639\u063a\ufffd\ufffd\ufffd\ufffd\ufffd",
 "\u0640\u0641\u0642\u0643\u0644\u0645\u0646\u0647\u0648\u0649\u064a\u064b\u064c\u064d\u064e\u064f",
 "\u0650\u0651\u0652\ufffd\ufffd\ufffd\ufffd\ufffd\ufffd\ufffd\ufffd\ufffd\ufffd\ufffd\ufffd\ufffd"]

/-- ISO 8859, part 7. -/
def iso8859Part7 : CodeTable := ofRows [
 unassigned,
 unassigned,
 "\u00a0‘’£€₯¦§¨©ͺ«¬\u00ad\ufffd―",
 "°±²³΄΅Ά·ΈΉΊ»Ό½ΎΏ",
 "ΐΑΒΓΔΕΖΗΘΙΚΛΜΝΞΟ",
 "ΠΡ\ufffdΣΤΥΦΧΨΩΪΫάέήί",
 "ΰαβγδεζηθικλμνξο",
 "πρςστυφχψωϊϋόύώ\ufffd"]

/-- ISO 8859, part 8. -/
def iso8859Part8 : CodeTable := ofRows [
 unassigned,
 unassigned,
 "\u00a0\ufffd¢£¤¥¦§¨©×«¬\u00ad®¯",
 "°±²³´µ¶·¸¹÷»¼½¾\ufffd",
 unassigned,
 "\ufffd\ufffd\ufffd\ufffd\ufffd\ufffd\ufffd\ufffd\ufffd\ufffd\ufffd\ufffd\ufffd\ufffd\ufffd‗",
 "\u05d0\u05d1\u05d2\u05d3\u05d4\u05d5\u05d6\u05d7\u05d8\u05d9\u05da\u05db\u05dc\u05dd\u05de\u05df",
 "\u05e0\u05e1\u05e2\u05e3\u05e4\u05e5\u05e6\u05e7\u05e8\u05e9\u05ea\ufffd\ufffd\u200e\u200f\ufffd"]

/-- ISO 8859, part 10. -/
def iso8859Part10 : CodeTable := ofRows [
 unassigned,
 unassigned,
 "\u00a0ĄĒĢĪĨĶ§ĻĐŠŦŽ\u00adŪŊ",
 "°ąēģīĩķ·ļđšŧž―ūŋ",
 "ĀÁÂÃÄÅÆĮČÉĘËĖÍÎÏ",
 "ÐŅŌÓÔÕÖŨØŲÚÛÜÝÞß",
 "āáâãäåæįčéęëėíîï",
 "ðņōóôõöũøųúûüýþĸ"]

/-- ISO 8859, part 13. -/
def iso8859Part13 : CodeTable := ofRows [
 unassigned,
 unassigned,
 "\u00a0”¢£¤„¦§Ø©Ŗ«¬\u00ad®Æ",
 "°±²³“µ¶·ø¹ŗ»¼½¾æ",
 "ĄĮĀĆÄÅĘĒČÉŹĖĢĶĪĻ",
 "ŠŃŅÓŌÕÖ×ŲŁŚŪÜŻŽß",
 "ąįāćäåęēčéźėģķīļ",
 "šńņóōõö÷ųłśūüżž’"]

/-- ISO 8859, part 14. -/
def iso8859Part14 : CodeTable := ofRows [
 unassigned,
 unassigned,
 "\u00a0Ḃḃ£ĊċḊ§Ẁ©ẂḋỲ\u00ad®Ÿ",
 "ḞḟĠġṀṁ¶ṖẁṗẃṠỳẄẅṡ",
 "ÀÁÂÃÄÅÆÇÈÉÊËÌÍÎÏ",
 "ŴÑÒÓÔÕÖṪØÙÚÛÜÝŶß",
 "àáâãäåæçèéêëìíîï",
 "ŵñòóôõöṫøùúûüýŷÿ"]

/-- ISO 8859, part 15. -/
def iso8859Part15 : CodeTable := ofRows [
 unassigned,
 unassigned,
 "\u00a0¡¢£€¥Š§š©ª«¬\u00ad®¯",
 "°±²³Žµ¶·ž¹º»ŒœŸ¿",
 "ÀÁÂÃÄÅÆÇÈÉÊËÌÍÎÏ",
 "ÐÑÒÓÔÕÖ×ØÙÚÛÜÝÞß",
 "àáâãäåæçèéêëìíîï",
 "ðñòóôõö÷øùúûüýþÿ"]

/-- ISO 8859, part 16. -/
def iso8859Part16 : CodeTable := ofRows [
 unassigned,
 unassigned,
 "\u00a0ĄąŁ€„Š§š©Ș«Ź\u00adźŻ",
 "°±ČłŽ”¶·žčș»ŒœŸż",
 "ÀÁÂĂÄĆÆÇÈÉÊËÌÍÎÏ",
 "ĐŃÒÓÔŐÖŚŰÙÚÛÜĘȚß",
 "àáâăäćæçèéêëìíîï",
 "đńòóôőöśűùúûüęțÿ"]

/-- KOI8-R. -/
def koi8R : CodeTable := ofRows [
 "─│┌┐└┘├┤┬┴┼▀▄█▌▐",
 "░▒▓⌠■∙√≈≤≥\u00a0⌡°²·÷",
 "═║╒ё╓╔╕╖╗╘╙╚╛╜╝╞",
 "╟╠╡Ё╢╣╤╥╦╧╨╩╪╫╬©",
 "юабцдефгхийклмно",
 "пярстужвьызшэщчъ",
 "ЮАБЦДЕФГХИЙКЛМНО",
 "ПЯРСТУЖВЬЫЗШЭЩЧЪ"]

/-- KOI8-U, with the Belarusian letters. -/
def koi8U : CodeTable := ofRows [
 "─│┌┐└┘├┤┬┴┼▀▄█▌▐",
 "░▒▓⌠■∙√≈≤≥\u00a0⌡°²·÷",
 "═║╒ёє╔ії╗╘╙╚╛ґў╞",
 "╟╠╡ЁЄ╣ІЇ╦╧╨╩╪ҐЎ©",
 "юабцдефгхийклмно",
 "пярстужвьызшэщчъ",
 "ЮАБЦДЕФГХИЙКЛМНО",
 "ПЯРСТУЖВЬЫЗШЭЩЧЪ"]

/-- Macintosh Roman. -/
def macRoman : CodeTable := ofRows [
 "ÄÅÇÉÑÖÜáàâäãåçéè",
 "êëíìîïñóòôöõúùûü",
 "†°¢£§•¶ß®©™´¨≠ÆØ",
 "∞±≤≥¥µ∂∑∏π∫ªºΩæø",
 "¿¡¬√ƒ≈∆«»…\u00a0ÀÃÕŒœ",
 "–—“”‘’÷◊ÿŸ⁄€‹›ﬁﬂ",
 "‡·‚„‰ÂÊÁËÈÍÎÏÌÓÔ",
 "\uf8ffÒÚÛÙıˆ˜¯˘˙˚¸˝˛ˇ"]

/-- Macintosh Cyrillic. -/
def macCyrillic : CodeTable := ofRows [
 "АБВГДЕЖЗИЙКЛМНОП",
 "РСТУФХЦЧШЩЪЫЬЭЮЯ",
 "†°Ґ£§•¶І®©™Ђђ≠Ѓѓ",
 "∞±≤≥іµґЈЄєЇїЉљЊњ",
 "јЅ¬√ƒ≈∆«»…\u00a0ЋћЌќѕ",
 "–—“”‘’÷„ЎўЏџ№Ёёя",
 "абвгдежзийклмноп",
 "рстуфхцчшщъыьэю€"]

/-- Windows code page 874. -/
def windows874 : CodeTable := ofRows [
 "€\ufffd\ufffd\ufffd\ufffd…\ufffd\ufffd\ufffd\ufffd\ufffd\ufffd\ufffd\ufffd\ufffd\ufffd",
 "\ufffd‘’“”•–—\ufffd\ufffd\ufffd\ufffd\ufffd\ufffd\ufffd\ufffd",
 "\u00a0กขฃคฅฆงจฉชซฌญฎฏ",
 "ฐฑฒณดตถทธนบปผฝพฟ",
 "ภมยรฤลฦวศษสหฬอฮฯ",
 "ะ\u0e31าำ\u0e34\u0e35\u0e36\u0e37\u0e38\u0e39\u0e3a\ufffd\ufffd\ufffd\ufffd฿",
 "เแโใไๅๆ\u0e47\u0e48\u0e49\u0e4a\u0e4b\u0e4c\u0e4d\u0e4e๏",
 "๐๑๒๓๔๕๖๗๘๙๚๛\ufffd\ufffd\ufffd\ufffd"]

/-- Windows code page 1250. -/
def windows1250 : CodeTable := ofRows [
 "€\ufffd‚\ufffd„…†‡\ufffd‰Š‹ŚŤŽŹ",
 "\ufffd‘’“”•–—\ufffd™š›śťžź",
 "\u00a0ˇ˘Ł¤Ą¦§¨©Ş«¬\u00ad®Ż",
 "°±˛ł´µ¶·¸ąş»Ľ˝ľż",
 "ŔÁÂĂÄĹĆÇČÉĘËĚÍÎĎ",
 "ĐŃŇÓÔŐÖ×ŘŮÚŰÜÝŢß",
 "ŕáâăäĺćçčéęëěíîď",
 "đńňóôőö÷řůúűüýţ˙"]

/-- Windows code page 1251. -/
def windows1251 : CodeTable := ofRows [
 "ЂЃ‚ѓ„…†‡€‰Љ‹ЊЌЋЏ",
 "ђ‘’“”•–—\ufffd™љ›њќћџ",
 "\u00a0ЎўЈ¤Ґ¦§Ё©Є«¬\u00ad®Ї",
 "°±Ііґµ¶·ё№є»јЅѕї",
 "АБВГДЕЖЗИЙКЛМНОП",
 "РСТУФХЦЧШЩЪЫЬЭЮЯ",
 "абвгдежзийклмноп",
 "рстуфхцчшщъыьэюя"]

/-- Windows code page 1252. -/
def windows1252 : CodeTable := ofRows [
 "€\ufffd‚ƒ„…†‡ˆ‰Š‹Œ\ufffdŽ\ufffd",
 "\ufffd‘’“”•–—˜™š›œ\ufffdžŸ",
 "\u00a0¡¢£¤¥¦§¨©ª«¬\u00ad®¯",
 "°±²³´µ¶·¸¹º»¼½¾¿",
 "ÀÁÂÃÄÅÆÇÈÉÊËÌÍÎÏ",
 "ÐÑÒÓÔÕÖ×ØÙÚÛÜÝÞß",
 "àáâãäåæçèéêëìíîï",
 "ðñòóôõö÷øùúûüýþÿ"]

/-- Windows code page 1253. -/
def windows1253 : CodeTable := ofRows [
 "€\ufffd‚ƒ„…†‡\ufffd‰\ufffd‹\ufffd\ufffd\ufffd\ufffd",
 "\ufffd‘’“”•–—\ufffd™\ufffd›\ufffd\ufffd\ufffd\ufffd",
 "\u00a0΅Ά£¤¥¦§¨©\ufffd«¬\u00ad®―",
 "°±²³΄µ¶·ΈΉΊ»Ό½ΎΏ",
 "ΐΑΒΓΔΕΖΗΘΙΚΛΜΝΞΟ",
 "ΠΡ\ufffdΣΤΥΦΧΨΩΪΫάέήί",
 "ΰαβγδεζηθικλμνξο",
 "πρςστυφχψωϊϋόύώ\ufffd"]

/-- Windows code page 1254. -/
def windows1254 : CodeTable := ofRows [
 "€\ufffd‚ƒ„…†‡ˆ‰Š‹Œ\ufffd\ufffd\ufffd",
 "\ufffd‘’“”•–—˜™š›œ\ufffd\ufffdŸ",
 "\u00a0¡¢£¤¥¦§¨©ª«¬\u00ad®¯",
 "°±²³´µ¶·¸¹º»¼½¾¿",
 "ÀÁÂÃÄÅÆÇÈÉÊËÌÍÎÏ",
 "ĞÑÒÓÔÕÖ×ØÙÚÛÜİŞß",
 "àáâãäåæçèéêëìíîï",
 "ğñòóôõö÷øùúûüışÿ"]

/-- Windows code page 1255. -/
def windows1255 : CodeTable := ofRows [
 "€\ufffd‚ƒ„…†‡ˆ‰\ufffd‹\ufffd\ufffd\ufffd\ufffd",
 "\ufffd‘’“”•–—˜™\ufffd›\ufffd\ufffd\ufffd\ufffd",
 "\u00a0¡¢£₪¥¦§¨©×«¬\u00ad®¯",
 "°±²³´µ¶·¸¹÷»¼½¾¿",
 "\u05b0\u05b1\u05b2\u05b3\u05b4\u05b5\u05b6\u05b7\u05b8\u05b9\u05ba\u05bb\u05bc\u05bd\u05be\u05bf",
 "\u05c0\u05c1\u05c2\u05c3\u05f0\u05f1\u05f2\u05f3\u05f4\ufffd\ufffd\ufffd\ufffd\ufffd\ufffd\ufffd",
 "\u05d0\u05d1\u05d2\u05d3\u05d4\u05d5\u05d6\u05d7\u05d8\u05d9\u05da\u05db\u05dc\u05dd\u05de\u05df",
 "\u05e0\u05e1\u05e2\u05e3\u05e4\u05e5\u05e6\u05e7\u05e8\u05e9\u05ea\ufffd\ufffd\u200e\u200f\ufffd"]

/-- Windows code page 1256. -/
def windows1256 : CodeTable := ofRows [
 "€\u067e‚ƒ„…†‡ˆ‰\u0679‹Œ\u0686\u0698\u0688",
 "\u06af‘’“”•–—\u06a9™\u0691›œ\u200c\u200d\u06ba",
 "\u00a0،¢£¤¥¦§¨©\u06be«¬\u00ad®¯",
 "°±²³´µ¶·¸¹\u061b»¼½¾\u061f",
 "\u06c1\u0621\u0622\u0623\u0624\u0625\u0626\u0627\u0628\u0629\u062a\u062b\u062c\u062d\u062e\u062f",
 "\u0630\u0631\u0632\u0633\u0634\u0635\u0636×\u0637\u0638\u0639\u063a\u0640\u0641\u0642\u0643",
 "à\u0644â\u0645\u0646\u0647\u0648çèéêë\u0649\u064aîï",
 "\u064b\u064c\u064d\u064eô\u064f\u0650÷\u0651ù\u0652ûü\u200e\u200f\u06d2"]

/-- Windows code page 1257. -/
def windows1257 : CodeTable := ofRows [
 "€\ufffd‚\ufffd„…†‡\ufffd‰\ufffd‹\ufffd¨ˇ¸",
 "\ufffd‘’“”•–—\ufffd™\ufffd›\ufffd¯˛\ufffd",
 "\u00a0\ufffd¢£¤\ufffd¦§Ø©Ŗ«¬\u00ad®Æ",
 "°±²³´µ¶·ø¹ŗ»¼½¾æ",
 "ĄĮĀĆÄÅĘĒČÉŹĖĢĶĪĻ",
 "ŠŃŅÓŌÕÖ×ŲŁŚŪÜŻŽß",
 "ąįāćäåęēčéźėģķīļ",
 "šńņóōõö÷ųłśūüżž˙"]

/-- Windows code page 1258. -/
def windows1258 : CodeTable := ofRows [
 "€\ufffd‚ƒ„…†‡ˆ‰\ufffd‹Œ\ufffd\ufffd\ufffd",
 "\ufffd‘’“”•–—˜™\ufffd›œ\ufffd\ufffdŸ",
 "\u00a0¡¢£¤¥¦§¨©ª«¬\u00ad®¯",
 "°±²³´µ¶·¸¹º»¼½¾¿",
 "ÀÁÂĂÄÅÆÇÈÉÊË\u0300ÍÎÏ",
 "ĐÑ\u0309ÓÔƠÖ×ØÙÚÛÜƯ\u0303ß",
 "àáâăäåæçèéêë\u0301íîï",
 "đñ\u0323óôơö÷øùúûüư₫ÿ"]

/-- The user-defined table: the upper bytes stand for private use characters from U+F780 on. -/
def userDefined : CodeTable := ⟨(Array.range 128).map fun i => Char.ofNat (0xf780 + i)⟩

end CodeTable

end Stencil.Encoding
