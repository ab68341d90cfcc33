import Mathlib.Algebra.Group.Nat.Defs
import Stencil.Artifact.Basic
import Stencil.Proofs.Artifact.Lists

/-!
# Reading back what was stored

The list of names in front of a compiled template is found again because nothing in it looks like
its end: the end contains the character `>`, which is never written in a list. What follows the
comment is not looked at, so the text of the template may contain anything.

Stored fragments have three forms, which are told apart by their first bytes: a list begins with a
bracket or is `null`, and a compressed list has a mark in front that begins with neither. How lists
are compressed does not matter. All that is asked of the blocks is that they are restored, and that
none of them holds more than a fixed multiple of its size, since a file that claims more is refused.

## Main definitions

* `Block.Codec.Faithful` – blocks are restored, and are not too small for what they hold

## Main results

* `Block.faithful_literals` – blocks of literals are such blocks
* `Artifact.readDependencies_content` – reading the names in front of a compiled template
* `Artifact.decodeBlocks_encodeBlocks` – reading fragments that were stored
-/

namespace Stencil

/-! ### Blocks -/

namespace Block

variable {t u : Text} {n m size : Nat} {out out' : Array UInt8}

/-- What is asked of a way to write blocks. -/
structure Codec.Faithful (c : Codec) : Prop where
  /-- What was compressed is restored, given as much room as it needs. -/
  restores : ∀ t, c.compress t ≠ [] → c.decompress t.length (c.compress t) = some t
  /-- No block holds more than a fixed multiple of its size. -/
  bounded : ∀ size block t, c.decompress size block = some t →
    t.length ≤ block.length * Artifact.maxRatio

theorem extend?_extension (m n : Nat) (t : Text) :
    extend? m (extension n ++ t) = some (m + n, t) := by
  have hrun (k r : Nat) (hr : r < 255) : extend? m (List.replicate k 255 ++ [UInt8.ofNat r] ++ t) =
      some (m + 255 * k + r, t) := by
    induction k generalizing m with
    | zero =>
      have hbyte : (UInt8.ofNat r).toNat = r := Text.toNat_ofNat_of_lt (by omega)
      have hne : UInt8.ofNat r ≠ 255 := fun h => by
        rw [h] at hbyte
        exact absurd hbyte (by change 255 ≠ r; omega)
      simp [extend?, hne, hbyte]
    | succ k ih =>
      rw [List.replicate_succ, List.cons_append, List.cons_append, extend?, if_pos rfl, ih]
      congr 2
      omega
  rw [extension, hrun _ _ (Nat.mod_lt n (by decide))]
  congr 2
  omega

theorem length?_compress (ht : 15 ≤ t.length) :
    length? 15 (extension (t.length - 15) ++ t) = some (t.length, t) := by
  rw [length?, if_pos rfl, extend?_extension]
  congr 2
  omega

/-- A single run of literals is restored. -/
theorem sequences?_literals {token : UInt8} {rest : Text} (htoken : token.toNat % 16 = 0)
    (hlength : length? (token.toNat / 16) rest = some (t.length, t)) :
    sequences? t.length (n + 1) (token :: rest) #[] = some t.toArray := by
  rw [sequences?, hlength]
  simp [htoken]

theorem decompress_compress (t : Text) : decompress t.length (compress t) = some t := by
  rw [decompress, compress]
  split
  · have htoken : (UInt8.ofNat (t.length * 16)).toNat = t.length * 16 :=
      Text.toNat_ofNat_of_lt (by omega)
    rw [List.length_cons, sequences?_literals (by omega)]
    · rfl
    · rw [htoken, Nat.mul_div_cancel _ (by decide), length?, if_neg (by omega)]
  · rw [List.cons_append, List.length_cons, sequences?_literals rfl]
    · rfl
    · exact length?_compress (by omega)

theorem extend?_bounded (h : extend? n t = some (m, u)) :
    m + 255 * u.length ≤ n + 255 * t.length := by
  induction t generalizing n with
  | nil => cases h
  | cons b t ih =>
    rw [extend?] at h
    rw [List.length_cons]
    split at h
    · have := ih h
      omega
    · obtain ⟨rfl, rfl⟩ := Prod.mk.inj (Option.some.inj h)
      have := b.toNat_lt
      omega

theorem length?_bounded (h : length? n t = some (m, u)) :
    m + 255 * u.length ≤ n + 255 * t.length := by
  rw [length?] at h
  split at h
  · have := extend?_bounded h
    omega
  · obtain ⟨rfl, rfl⟩ := Prod.mk.inj (Option.some.inj h)
    exact Nat.le_refl _

theorem size_repeatMatch (distance n : Nat) (out : Array UInt8) :
    (repeatMatch distance n out).size = out.size + n := by
  induction n generalizing out with
  | zero => rfl
  | succ n ih =>
    rw [repeatMatch, ih, Array.size_push]
    omega

/-- Each byte of a block adds at most 255 bytes to the output. -/
theorem sequences?_bounded (h : sequences? size n t out = some out') :
    out'.size ≤ out.size + 255 * t.length := by
  induction n generalizing t out with
  | zero =>
    rw [sequences?] at h
    split at h
    · obtain rfl := Option.some.inj h
      exact Nat.le_add_right _ _
    · cases h
  | succ n ih =>
    cases t with
    | nil =>
      obtain rfl := Option.some.inj h
      exact Nat.le_refl _
    | cons token t =>
      rw [sequences?] at h
      obtain ⟨⟨count, t₁⟩, hcount, h⟩ := Option.bind_eq_some_iff.mp h
      have hliterals := length?_bounded hcount
      dsimp only at h
      split at h
      · cases h
      · rename_i hroom
        have htake : (t₁.take count).length = count := by
          rw [List.length_take] at hroom ⊢
          omega
        have hdrop : (t₁.drop count).length = t₁.length - count := List.length_drop
        have hsize : (out ++ t₁.take count).size = out.size + count := by
          rw [← Array.length_toList, Array.toList_appendList, List.length_append, htake,
            Array.length_toList]
        have htoken := token.toNat_lt
        split at h
        · split at h
          · obtain rfl := Option.some.inj h
            rw [hsize, List.length_cons]
            rw [List.length_take] at htake
            omega
          · cases h
        · cases h
        · rename_i low high t₂ heq
          obtain ⟨⟨k, t₃⟩, hk, h⟩ := Option.bind_eq_some_iff.mp h
          have hmatch := length?_bounded hk
          dsimp only at h
          split at h
          · cases h
          · have hrest := ih h
            rw [size_repeatMatch, hsize] at hrest
            rw [heq] at hdrop
            rw [List.length_take] at htake
            simp only [List.length_cons] at hdrop ⊢
            omega

/-- Blocks of literals are restored and not too small. -/
theorem faithful_literals : literals.Faithful where
  restores t _ := decompress_compress t
  bounded size block t h := by
    obtain ⟨out, hout, rfl⟩ := Option.map_eq_some_iff.mp h
    have hsize := sequences?_bounded hout
    rw [Array.length_toList, Artifact.maxRatio, Nat.mul_comm]
    simpa using hsize

end Block

namespace Artifact

/-! ### The names in front of a compiled template -/

theorem dropStart?_append (s t : Text) : Text.dropStart? s (s ++ t) = some t := by
  rw [Text.dropStart?, if_pos (List.isPrefixOf_iff_prefix.mpr (List.prefix_append s t)),
    List.drop_left]

/-- What ends with a byte that does not occur before is found where it was put. -/
theorem find?_append {b : UInt8} {u v : Text} (hu : b ∉ u) (hv : b ∉ v) (t : Text) :
    Text.find? (v ++ [b]) (u ++ (v ++ [b]) ++ t) = some u.length := by
  induction u with
  | nil =>
    obtain ⟨c, w, hw⟩ : ∃ c w, v ++ [b] ++ t = c :: w := by
      cases v <;> exact ⟨_, _, rfl⟩
    have hfirst : (v ++ [b]).isPrefixOf (c :: w) :=
      List.isPrefixOf_iff_prefix.mpr (hw ▸ List.prefix_append _ _)
    rw [List.nil_append, hw, Text.find?, if_pos hfirst]
    rfl
  | cons c u ih =>
    have hlater : ¬ (v ++ [b]).isPrefixOf (c :: (u ++ (v ++ [b]) ++ t)) := by
      intro hprefix
      obtain ⟨w, hw⟩ := List.isPrefixOf_iff_prefix.mp hprefix
      -- otherwise the byte would occur for the first time in two places
      have hcut := Text.cut?_append (u := w) hv
      have hcut' := Text.cut?_append (t := c :: u ++ v) (u := t)
        (fun h => (List.mem_append.mp h).elim hu hv)
      have heq : v ++ b :: w = c :: u ++ v ++ b :: t := by simpa using hw
      rw [heq, hcut'] at hcut
      have hlength := congrArg List.length (Prod.mk.inj (Option.some.inj hcut)).1
      simp only [List.length_append, List.length_cons] at hlength
      omega
    rw [List.cons_append, List.cons_append, Text.find?, if_neg hlater,
      ih fun h => hu (List.mem_cons_of_mem c h)]
    rfl

/-- **The names in front of a compiled template are read back**, and its text follows them as it
is. -/
theorem readDependencies_content (a : Artifact) (hne : a.dependencies ≠ [])
    (hutf8 : ∀ t ∈ a.dependencies, t.IsUtf8) :
    readDependencies a.content = .ok (some a.dependencies) ∧
      a.content = headerStart ++ StringList.render a.dependencies ++ headerEnd ++ a.output := by
  have hcontent : a.content =
      headerStart ++ StringList.render a.dependencies ++ headerEnd ++ a.output := if_neg hne
  refine ⟨?_, hcontent⟩
  have hfind : Text.find? headerEnd
      (StringList.render a.dependencies ++ headerEnd ++ a.output) =
        some (StringList.render a.dependencies).length :=
    find?_append (b := 0x3e) (v := " */ ?") (StringList.not_mem_render _) (by decide) _
  rw [hcontent, List.append_assoc, List.append_assoc, readDependencies, dropStart?_append,
    ← List.append_assoc]
  dsimp only
  rw [hfind]
  dsimp only
  rw [List.append_assoc, List.take_left, StringList.parse?_render hutf8]

/-- A template with a name that looks like the end of the comment, and a text that looks like a
comment. -/
def misleading : Artifact where
  template := "main"
  output := "<?php /* declari:dependencies [] */ ?>"
  dependencies := [" */ ?>", "ä\"]"]

theorem readDependencies_misleading : misleading.dependencies ≠ [] ∧
    (∀ t ∈ misleading.dependencies, t.IsUtf8) ∧
      readDependencies misleading.content = .ok (some [" */ ?>", "ä\"]"]) := by
  have hutf8 : ∀ t ∈ misleading.dependencies, t.IsUtf8 := by
    rintro t (_ | ⟨_, _ | ⟨_, ⟨⟩⟩⟩)
    · exact ⟨" */ ?>".toList, by decide⟩
    · exact ⟨"ä\"]".toList, by decide⟩
  exact ⟨List.cons_ne_nil _ _, hutf8,
    (readDependencies_content misleading (List.cons_ne_nil _ _) hutf8).1⟩

/-! ### Fragments -/

theorem sizeOf_sizeBytes {n : Nat} (h : n < 2 ^ 32) : ∃ a b c d, sizeBytes n = [a, b, c, d] ∧
    sizeOf a b c d = n := by
  refine ⟨_, _, _, _, rfl, ?_⟩
  have hbyte (k : Nat) : (UInt8.ofNat (k % 256)).toNat = k % 256 :=
    Text.toNat_ofNat_of_lt (Nat.mod_lt k (by decide))
  have hpow : Nat.pow 2 24 = 16777216 ∧ Nat.pow 2 16 = 65536 ∧
      Nat.pow 2 8 = 256 ∧ Nat.pow 2 0 = 1 :=
    ⟨rfl, rfl, rfl, rfl⟩
  simp only [sizeOf, hbyte, hpow]
  omega

theorem decodeList_encodeList {blocks : Option (List Text)}
    (hutf8 : ∀ ts ∈ blocks, ∀ t ∈ ts, t.IsUtf8) : decodeList (encodeList blocks) = .ok blocks := by
  cases blocks with
  | none =>
    change decodeList StringList.absent = _
    rw [decodeList, StringList.parse?_absent]
  | some ts =>
    change decodeList (StringList.render ts) = _
    rw [decodeList, StringList.parse?_render (hutf8 ts rfl)]

/-- A list does not begin like a compressed list. -/
theorem dropStart?_magic_encodeList (blocks : Option (List Text)) :
    Text.dropStart? magic (encodeList blocks) = none := by
  cases blocks with
  | none => decide
  | some ts => rfl

/-- **Fragments that were stored are read back**, compressed or not, and so is there being no list
of them. -/
theorem decodeBlocks_encodeBlocks {codec : Block.Codec} (hcodec : codec.Faithful)
    (blocks : Option (List Text)) (hutf8 : ∀ ts ∈ blocks, ∀ t ∈ ts, t.IsUtf8)
    (hsize : (encodeList blocks).length < 2 ^ 32) (compress : Bool) :
    decodeBlocks (encodeBlocks blocks compress codec) codec = .ok blocks := by
  have hplain : decodeBlocks (encodeList blocks) codec = .ok blocks := by
    rw [decodeBlocks, dropStart?_magic_encodeList]
    exact decodeList_encodeList hutf8
  rw [encodeBlocks]
  dsimp only
  split
  · split
    · exact hplain
    · rename_i hblock
      have hrestored := hcodec.restores _ hblock
      have hbound := hcodec.bounded _ _ _ hrestored
      obtain ⟨a, b, c, d, hbytes, hsizeOf⟩ := sizeOf_sizeBytes hsize
      rw [hbytes, List.append_assoc, decodeBlocks, dropStart?_append]
      simp only [List.cons_append, List.nil_append, hsizeOf]
      rw [if_neg (Nat.not_lt.mpr hbound), hrestored]
      exact decodeList_encodeList hutf8
  · exact hplain

/-- A short list, compressed to a single run of literals. -/
theorem decodeBlocks_encodeBlocks_short : Block.literals.Faithful ∧
    ("\"<" : Text).IsUtf8 ∧ (encodeList (some ["\"<"])).length = 12 ∧
      decodeBlocks (encodeBlocks (some ["\"<"]) true) = .ok (some ["\"<"]) := by
  have hutf8 : ("\"<" : Text).IsUtf8 := ⟨['"', '<'], by decide⟩
  have hlength : (encodeList (some ["\"<"])).length = 12 := by decide
  refine ⟨Block.faithful_literals, hutf8, hlength, ?_⟩
  refine decodeBlocks_encodeBlocks Block.faithful_literals (some ["\"<"]) ?_ ?_ true
  · rintro _ ⟨⟩ t ht
    exact List.mem_singleton.mp ht ▸ hutf8
  · rw [hlength]
    decide

end Artifact

end Stencil
