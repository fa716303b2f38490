import SsaOpt.Cbor.Reader
import SsaOpt.Proofs.Results

/-!
# The bytes of items

What is written can be read. An item is plain (`Item.Plain`) if it is made of numbers, texts in one
chunk, truth values and nothing, and of arrays and maps that are not too large; the nesting is
counted. The bytes of a plain item, whatever follows them, are read as the item (`Plain.readItem`).

What is read need not be plain, but it is modest (`Item.Modest`): its arrays are not too large, and
its texts are no longer than the bytes that were read.
-/

namespace SsaOpt.Cbor

/-! ## Numbers and heads -/

theorem length_bigEndian (width n : Nat) : (bigEndian width n).length = width := by
  induction width generalizing n with
  | zero => rfl
  | succ width ih => rw [bigEndian, List.length_append, ih, List.length_singleton]

theorem ofBigEndian_append_singleton (bytes : List UInt8) (b : UInt8) :
    ofBigEndian (bytes ++ [b]) = ofBigEndian bytes * 256 + b.toNat := by
  rw [ofBigEndian, List.foldl_append]
  rfl

theorem ofBigEndian_bigEndian {width n : Nat} (h : n < Nat.pow 256 width) :
    ofBigEndian (bigEndian width n) = n := by
  induction width generalizing n with
  | zero => exact (Nat.lt_one_iff.1 h).symm
  | succ width ih =>
    have hrest : n / 256 < Nat.pow 256 width := by
      apply Nat.div_lt_of_lt_mul
      rw [Nat.mul_comm]
      exact h
    have hlast : (UInt8.ofNat n).toNat = n % 256 := UInt8.toNat_ofNat'
    rw [bigEndian, ofBigEndian_append_singleton, ih hrest, hlast]
    omega

theorem readBytes_append (bytes rest : List UInt8) :
    readBytes bytes.length (bytes ++ rest) = .ok (bytes, rest) := by
  induction bytes with
  | nil => rfl
  | cons b bytes ih => rw [List.length_cons, List.cons_append, readBytes, ih]

/-- The first byte of a head holds the type and the additional information. -/
theorem toNat_first {major info : Nat} (hmajor : major < 8) (hinfo : info < 32) :
    (UInt8.ofNat (major * 32 + info)).toNat = major * 32 + info := by
  apply UInt8.toNat_ofNat_of_lt'
  show major * 32 + info < 256
  omega

/-- A head whose argument follows in `2 ^ k` bytes. -/
theorem readHead_first_bigEndian {major k n : Nat} (hmajor : major < 8) (hk : k < 4)
    (h : n < Nat.pow 256 (Nat.pow 2 k)) (rest : List UInt8) :
    readHead (UInt8.ofNat (major * 32 + (24 + k)) :: (bigEndian (Nat.pow 2 k) n ++ rest)) =
      .ok (⟨major, 24 + k, n⟩, rest) := by
  have hfirst := toNat_first hmajor (by omega : 24 + k < 32)
  have hmod : (major * 32 + (24 + k)) % 32 = 24 + k := by omega
  have hdiv : (major * 32 + (24 + k)) / 32 = major := by omega
  have hbytes : readBytes (Nat.pow 2 k) (bigEndian (Nat.pow 2 k) n ++ rest) =
      .ok (bigEndian (Nat.pow 2 k) n, rest) := by
    have := readBytes_append (bigEndian (Nat.pow 2 k) n) rest
    rwa [length_bigEndian] at this
  simp only [readHead, hfirst, hmod, hdiv]
  rw [if_neg (by omega), if_neg (by omega), if_neg (by omega), Nat.add_sub_cancel_left, hbytes]
  simp only [ofBigEndian_bigEndian h]

/-- A head in front of anything is read as it was written. -/
theorem readHead_head {major n : Nat} (hmajor : major < 8) (h : n < UInt64.size)
    (rest : List UInt8) :
    ∃ info, info ≠ 31 ∧ (n < 24 → info = n) ∧
      readHead (head major n ++ rest) = .ok (⟨major, info, n⟩, rest) := by
  unfold head
  dsimp only
  split
  · next hn =>
    have hfirst := toNat_first hmajor (by omega : n < 32)
    have hmod : (major * 32 + n) % 32 = n := by omega
    have hdiv : (major * 32 + n) / 32 = major := by omega
    refine ⟨n, by omega, fun _ => rfl, ?_⟩
    simp only [List.cons_append, List.nil_append, readHead, hfirst, hmod, hdiv]
    rw [if_pos hn]
  · next hn =>
    split
    · next h8 =>
      exact ⟨24, by decide, fun hlt => absurd hlt hn,
        readHead_first_bigEndian (k := 0) hmajor (by decide) h8 rest⟩
    · split
      · next h16 =>
        exact ⟨25, by decide, fun hlt => absurd hlt hn,
          readHead_first_bigEndian (k := 1) hmajor (by decide) h16 rest⟩
      · split
        · next h32 =>
          exact ⟨26, by decide, fun hlt => absurd hlt hn,
            readHead_first_bigEndian (k := 2) hmajor (by decide) h32 rest⟩
        · exact ⟨27, by decide, fun hlt => absurd hlt hn,
            readHead_first_bigEndian (k := 3) hmajor (by decide) h rest⟩

theorem head_ne_nil (major n : Nat) : head major n ≠ [] := by
  unfold head
  dsimp only
  repeat' split
  all_goals exact List.cons_ne_nil _ _

/-! ## Items that are written -/

namespace Item

/-- An item that can be read from its bytes within `depth` levels of arrays and maps. -/
inductive Plain : Nat → Item → Prop where
  | unsigned (depth : Nat) (n : UInt64) : Plain depth (.unsigned n)
  | negative (depth : Nat) (n : UInt64) : Plain depth (.negative n)
  | text (depth : Nat) {chunk : List UInt8} (h : chunk.length < UInt64.size) :
    Plain depth (.text [chunk])
  | simple (depth : Nat) {n : UInt8} (h : n.toNat < 24) : Plain depth (.simple n)
  | array {depth : Nat} {items : List Item} (h : items.length ≤ maxElements)
    (hitems : ∀ x ∈ items, Plain depth x) : Plain (depth + 1) (.array items)
  | map {depth : Nat} {entries : List (Item × Item)} (h : entries.length ≤ maxElements)
    (hkeys : ∀ e ∈ entries, Plain depth e.1) (hvalues : ∀ e ∈ entries, Plain depth e.2) :
    Plain (depth + 1) (.map entries)

/-- Keys and values in turn. -/
def alternate (entries : List (Item × Item)) : List Item := entries.flatMap fun e => [e.1, e.2]

theorem writeAll_alternate (entries : List (Item × Item)) :
    writeAll (alternate entries) = writeEntries entries := by
  induction entries with
  | nil => simp [alternate, writeAll, writeEntries]
  | cons e entries ih =>
    show writeAll (e.1 :: e.2 :: alternate entries) = writeEntries (e :: entries)
    simp only [writeAll, writeEntries, ih]

theorem entries?_alternate (entries : List (Item × Item)) :
    entries? (alternate entries) = some entries := by
  induction entries with
  | nil => rfl
  | cons e entries ih =>
    show (entries? (alternate entries)).map (e :: ·) = some (e :: entries)
    rw [ih, Option.map_some]

theorem length_alternate (entries : List (Item × Item)) :
    (alternate entries).length = 2 * entries.length := by
  induction entries with
  | nil => rfl
  | cons e entries ih =>
    show (alternate entries).length + 2 = 2 * (entries.length + 1)
    omega

/-- Reading as many items as were written. -/
theorem readMany_writeAll {read : ItemReader} {items : List Item}
    (h : ∀ x ∈ items, ∀ rest, read (x.write ++ rest) = .ok (x, rest)) (done : List Item)
    (rest : List UInt8) :
    readMany read items.length done (writeAll items ++ rest) =
      .ok (done.reverse ++ items, rest) := by
  induction items generalizing done with
  | nil => simp [writeAll, readMany]
  | cons x items ih =>
    rw [writeAll, List.append_assoc, List.length_cons, readMany, h x (by simp)]
    dsimp only
    rw [ih (fun y hy => h y (by simp [hy])), List.reverse_cons, List.append_assoc]
    rfl

/-- Reading the elements behind a head that is as it was written. -/
theorem readElements_writeAll {read : ItemReader} {items : List Item} {h : Head} {width : Nat}
    (hopen : h.info ≠ 31) (harg : h.arg ≤ maxElements) (hlength : items.length = width * h.arg)
    (hread : ∀ x ∈ items, ∀ rest, read (x.write ++ rest) = .ok (x, rest)) (rest : List UInt8) :
    readElements read width h (writeAll items ++ rest) = .ok (items, rest) := by
  have hopen : h.isOpen = false := decide_eq_false hopen
  rw [readElements, hopen, if_neg (by decide), if_neg (by omega), ← hlength,
    readMany_writeAll hread]
  rfl

/-- **The bytes of a plain item** are read as the item, whatever follows. -/
theorem Plain.readItem {levels : Nat} {x : Item} (h : Plain levels x) :
    ∀ {fuel depth : Nat}, levels < fuel → depth + levels ≤ maxDepth → ∀ (tagged : Bool) rest,
      Cbor.readItem fuel depth tagged (x.write ++ rest) = .ok (x, rest) := by
  induction h with
  | unsigned levels n =>
    intro fuel depth hfuel _ tagged rest
    obtain ⟨fuel, rfl⟩ := Nat.exists_eq_add_of_lt hfuel
    obtain ⟨info, hinfo, -, hhead⟩ := readHead_head (by decide : 0 < 8) n.toNat_lt rest
    simp [Cbor.readItem, write, hhead, bind, Except.bind, Head.isOpen, hinfo]
  | negative levels n =>
    intro fuel depth hfuel _ tagged rest
    obtain ⟨fuel, rfl⟩ := Nat.exists_eq_add_of_lt hfuel
    obtain ⟨info, hinfo, -, hhead⟩ := readHead_head (by decide : 1 < 8) n.toNat_lt rest
    simp [Cbor.readItem, write, hhead, bind, Except.bind, Head.isOpen, hinfo]
  | @text levels chunk h =>
    intro fuel depth hfuel _ tagged rest
    obtain ⟨fuel, rfl⟩ := Nat.exists_eq_add_of_lt hfuel
    obtain ⟨info, hinfo, -, hhead⟩ := readHead_head (by decide : 3 < 8) h (chunk ++ rest)
    simp [Cbor.readItem, write, hhead, bind, Except.bind, Head.isOpen, hinfo, readString,
      readBytes_append]
  | @simple levels n h =>
    intro fuel depth hfuel _ tagged rest
    obtain ⟨fuel, rfl⟩ := Nat.exists_eq_add_of_lt hfuel
    have hsize : n.toNat < UInt64.size := Nat.lt_trans h (by decide)
    obtain ⟨info, hinfo, hsmall, hhead⟩ := readHead_head (by decide : 7 < 8) hsize rest
    simp [Cbor.readItem, write, hhead, bind, Except.bind, ofSimpleHead, hsmall h, h]
  | @array levels items h hitems ih =>
    intro fuel depth hfuel hdepth tagged rest
    obtain ⟨fuel, rfl⟩ := Nat.exists_eq_add_of_lt hfuel
    have hsize : items.length < UInt64.size := Nat.lt_of_le_of_lt h (by decide)
    obtain ⟨info, hinfo, -, hhead⟩ :=
      readHead_head (by decide : 4 < 8) hsize (writeAll items ++ rest)
    have hread : readElements (Cbor.readItem (levels + 1 + fuel) (depth + 1) false) 1
        ⟨4, info, items.length⟩ (writeAll items ++ rest) = .ok (items, rest) := by
      apply readElements_writeAll hinfo h (Nat.one_mul _).symm
      intro x hx
      exact ih x hx (by omega) (by omega) false
    have hnested : ¬ maxDepth ≤ depth := by omega
    simp [Cbor.readItem, write, hhead, bind, Except.bind, hread, hnested]
  | @map levels entries h hkeys hvalues ihkeys ihvalues =>
    intro fuel depth hfuel hdepth tagged rest
    obtain ⟨fuel, rfl⟩ := Nat.exists_eq_add_of_lt hfuel
    have hsize : entries.length < UInt64.size := Nat.lt_of_le_of_lt h (by decide)
    obtain ⟨info, hinfo, -, hhead⟩ :=
      readHead_head (by decide : 5 < 8) hsize (writeEntries entries ++ rest)
    have hread : readElements (Cbor.readItem (levels + 1 + fuel) (depth + 1) false) 2
        ⟨5, info, entries.length⟩ (writeEntries entries ++ rest) =
          .ok (alternate entries, rest) := by
      rw [← writeAll_alternate]
      apply readElements_writeAll hinfo h (length_alternate entries)
      intro x hx
      obtain ⟨e, he, hx⟩ := List.mem_flatMap.1 hx
      obtain rfl | rfl : x = e.1 ∨ x = e.2 := by simpa using hx
      · exact ihkeys e he (by omega) (by omega) false
      · exact ihvalues e he (by omega) (by omega) false
    have hnested : ¬ maxDepth ≤ depth := by omega
    simp [Cbor.readItem, write, hhead, bind, Except.bind, hread, hnested, entries?_alternate]

theorem write_ne_nil {levels : Nat} {x : Item} (h : Plain levels x) : x.write ≠ [] := by
  cases h <;> simp [write, head_ne_nil]

theorem Plain.read_write {x : Item} (h : Plain maxDepth x) : Item.read x.write = .ok x := by
  have hread := h.readItem (by decide : maxDepth < 2 * maxDepth + 3)
    (by decide : 0 + maxDepth ≤ maxDepth) false []
  rw [List.append_nil] at hread
  rw [Item.read, List.isEmpty_eq_false_iff.2 (write_ne_nil h), if_neg (by decide), hread]

/-! ## Items that are read -/

/-- An item within the limits of reading. -/
inductive Modest : Item → Prop where
  | unsigned (n : UInt64) : Modest (.unsigned n)
  | negative (n : UInt64) : Modest (.negative n)
  | bytes (data : List UInt8) : Modest (.bytes data)
  | text {chunks : List (List UInt8)} (h : chunks.flatten.length < UInt64.size) :
    Modest (.text chunks)
  | array {items : List Item} (h : items.length ≤ maxElements) (hitems : ∀ x ∈ items, Modest x) :
    Modest (.array items)
  | map {entries : List (Item × Item)} (hvalues : ∀ e ∈ entries, Modest e.2) :
    Modest (.map entries)
  | tag (number : UInt64) {content : Item} (h : Modest content) : Modest (.tag number content)
  | simple (n : UInt8) : Modest (.simple n)
  | float (width : Nat) (bits : UInt64) : Modest (.float width bits)

end Item

/-! ### What the readers take -/

theorem append_of_readBytes {n : Nat} {bytes taken rest : List UInt8}
    (h : readBytes n bytes = .ok (taken, rest)) : taken ++ rest = bytes := by
  induction n generalizing bytes taken with
  | zero =>
    cases h
    rfl
  | succ n ih =>
    cases bytes with
    | nil => cases h
    | cons b bytes =>
      rw [readBytes] at h
      split at h
      · next hrest =>
        cases h
        rw [List.cons_append, ih hrest]
      · cases h

theorem length_lt_of_readHead {bytes rest : List UInt8} {h : Head}
    (hread : readHead bytes = .ok (h, rest)) : rest.length < bytes.length := by
  cases bytes with
  | nil => cases hread
  | cons b bytes =>
    simp only [readHead] at hread
    split at hread
    · cases hread
      exact Nat.lt_succ_self _
    · split at hread
      · cases hread
        exact Nat.lt_succ_self _
      · split at hread
        · cases hread
        · split at hread
          · next taken rest htaken =>
            cases hread
            have := congrArg List.length (append_of_readBytes htaken)
            rw [List.length_append] at this
            rw [List.length_cons]
            omega
          · cases hread

theorem length_le_of_readChunks {major fuel : Nat} {bytes rest : List UInt8}
    {chunks : List (List UInt8)} (h : readChunks major fuel bytes = .ok (chunks, rest)) :
    chunks.flatten.length + rest.length ≤ bytes.length := by
  induction fuel generalizing bytes chunks with
  | zero => cases h
  | succ fuel ih =>
    rw [readChunks] at h
    split at h
    · cases h
      rw [List.flatten_nil, List.length_nil, List.length_tail]
      omega
    · obtain ⟨⟨head, rest₁⟩, hhead, h⟩ := exists_of_bind_eq_ok h
      dsimp only at h
      split at h
      · cases h
      · obtain ⟨⟨chunk, rest₂⟩, hchunk, h⟩ := exists_of_bind_eq_ok h
        obtain ⟨⟨chunks, rest₃⟩, hchunks, h⟩ := exists_of_bind_eq_ok h
        dsimp only at hchunks h
        cases h
        have h₁ := length_lt_of_readHead hhead
        have h₂ := congrArg List.length (append_of_readBytes hchunk)
        have h₃ := ih hchunks
        rw [List.length_append] at h₂
        rw [List.flatten_cons, List.length_append]
        omega

theorem length_le_of_readString {h : Head} {bytes rest : List UInt8} {chunks : List (List UInt8)}
    (hread : readString h bytes = .ok (chunks, rest)) :
    chunks.flatten.length + rest.length ≤ bytes.length := by
  rw [readString] at hread
  split at hread
  · exact length_le_of_readChunks hread
  · obtain ⟨⟨chunk, rest'⟩, hchunk, hread⟩ := exists_of_bind_eq_ok hread
    cases hread
    have := congrArg List.length (append_of_readBytes hchunk)
    simpa using Nat.le_of_eq this

/-- A reader that reads modest items only, from fewer bytes than a length can count. -/
def ItemReader.IsModest (read : ItemReader) : Prop :=
  ∀ bytes x rest, bytes.length < UInt64.size → read bytes = .ok (x, rest) →
    x.Modest ∧ rest.length ≤ bytes.length

section Elements

variable {read : ItemReader} {done items : List Item} {bytes rest : List UInt8}

theorem ItemReader.IsModest.readMany (h : read.IsModest) {n : Nat}
    (hbytes : bytes.length < UInt64.size) (hdone : ∀ x ∈ done, x.Modest)
    (hread : Cbor.readMany read n done bytes = .ok (items, rest)) :
    (∀ x ∈ items, x.Modest) ∧ items.length = done.length + n ∧ rest.length ≤ bytes.length := by
  induction n generalizing done bytes with
  | zero =>
    cases hread
    exact ⟨fun x hx => hdone x (List.mem_reverse.1 hx), List.length_reverse, Nat.le_refl _⟩
  | succ n ih =>
    rw [Cbor.readMany] at hread
    split at hread
    · next x rest₁ hx =>
      obtain ⟨hmodest, hle⟩ := h bytes x rest₁ hbytes hx
      obtain ⟨hitems, hlength, hrest⟩ :=
        ih (by omega) (List.forall_mem_cons.2 ⟨hmodest, hdone⟩) hread
      rw [List.length_cons] at hlength
      exact ⟨hitems, by omega, by omega⟩
    · cases hread

theorem ItemReader.IsModest.readOpen (h : read.IsModest) {n : Nat}
    (hbytes : bytes.length < UInt64.size) (hdone : ∀ x ∈ done, x.Modest)
    (hread : Cbor.readOpen read n done bytes = .ok (items, rest)) :
    (∀ x ∈ items, x.Modest) ∧ items.length ≤ done.length + n ∧ rest.length ≤ bytes.length := by
  fun_induction Cbor.readOpen read n done bytes with
  | case1 n done bytes hbreak =>
    cases hread
    refine ⟨fun x hx => hdone x (List.mem_reverse.1 hx), ?_, ?_⟩
    · rw [List.length_reverse]
      omega
    · rw [List.length_tail]
      omega
  | case2 done bytes hbreak => cases hread
  | case3 done bytes hbreak n x rest₁ hx ih =>
    obtain ⟨hmodest, hle⟩ := h bytes x rest₁ hbytes hx
    obtain ⟨hitems, hlength, hrest⟩ :=
      ih (by omega) (List.forall_mem_cons.2 ⟨hmodest, hdone⟩) hread
    rw [List.length_cons] at hlength
    exact ⟨hitems, by omega, by omega⟩
  | case4 done bytes hbreak n e he => cases hread

theorem ItemReader.IsModest.readElements (h : read.IsModest) {width : Nat} {head : Head}
    (hbytes : bytes.length < UInt64.size)
    (hread : Cbor.readElements read width head bytes = .ok (items, rest)) :
    (∀ x ∈ items, x.Modest) ∧ items.length ≤ width * maxElements ∧
      rest.length ≤ bytes.length := by
  rw [Cbor.readElements] at hread
  split at hread
  · simpa using h.readOpen hbytes (by simp) hread
  · split at hread
    · cases hread
    · next hle =>
      obtain ⟨hitems, hlength, hrest⟩ := h.readMany hbytes (by simp) hread
      refine ⟨hitems, ?_, hrest⟩
      rw [hlength, List.length_nil, Nat.zero_add]
      exact Nat.mul_le_mul_left width (Nat.not_lt.1 hle)

end Elements

theorem alternate_of_entries? {items : List Item} {entries : List (Item × Item)}
    (h : entries? items = some entries) : Item.alternate entries = items := by
  fun_induction entries? items generalizing entries with
  | case1 =>
    cases h
    rfl
  | case2 => cases h
  | case3 key value rest ih =>
    obtain ⟨entries', hentries, rfl⟩ := Option.map_eq_some_iff.1 h
    show key :: value :: Item.alternate entries' = key :: value :: rest
    rw [ih hentries]

theorem modest_of_ofSimpleHead {h : Head} {x : Item} (hx : ofSimpleHead h = .ok x) :
    x.Modest := by
  unfold ofSimpleHead at hx
  repeat' split at hx
  all_goals cases hx
  · exact .simple _
  · exact .simple _
  · exact .float _ _

/-- **What is read is modest.** -/
theorem isModest_readItem (fuel depth : Nat) (tagged : Bool) :
    ItemReader.IsModest (readItem fuel depth tagged) := by
  induction fuel generalizing depth tagged with
  | zero =>
    intro bytes x rest _ hread
    cases hread
  | succ fuel ih =>
    intro bytes x rest hbytes hread
    rw [readItem] at hread
    obtain ⟨⟨h, rest₁⟩, hhead, hread⟩ := exists_of_bind_eq_ok hread
    have hlt := length_lt_of_readHead hhead
    have hsize : rest₁.length < UInt64.size := by omega
    dsimp only at hread
    -- One case for each type of item, from `0` on; a text is no longer than the bytes it is in.
    split at hread
    · split at hread
      · cases hread
      · cases hread
        exact ⟨.unsigned _, by omega⟩
    · split at hread
      · cases hread
      · cases hread
        exact ⟨.negative _, by omega⟩
    · obtain ⟨⟨chunks, rest₂⟩, hchunks, hread⟩ := exists_of_bind_eq_ok hread
      have hle := length_le_of_readString hchunks
      dsimp only at hread
      cases hread
      exact ⟨.bytes _, by omega⟩
    · obtain ⟨⟨chunks, rest₂⟩, hchunks, hread⟩ := exists_of_bind_eq_ok hread
      have hle := length_le_of_readString hchunks
      dsimp only at hread
      cases hread
      exact ⟨.text (by omega), by omega⟩
    · split at hread
      · cases hread
      · obtain ⟨⟨items, rest₂⟩, hitems, hread⟩ := exists_of_bind_eq_ok hread
        obtain ⟨hmodest, hlength, hle⟩ := (ih _ _).readElements hsize hitems
        dsimp only at hread
        cases hread
        exact ⟨.array (by omega) hmodest, by omega⟩
    · split at hread
      · cases hread
      · obtain ⟨⟨items, rest₂⟩, hitems, hread⟩ := exists_of_bind_eq_ok hread
        obtain ⟨hmodest, -, hle⟩ := (ih _ _).readElements hsize hitems
        dsimp only at hread
        split at hread
        · next entries hentries =>
          cases hread
          refine ⟨.map fun e he => hmodest _ ?_, by omega⟩
          rw [← alternate_of_entries? hentries]
          exact List.mem_flatMap.2 ⟨e, he, by simp⟩
        · cases hread
    · split at hread
      · cases hread
      · obtain ⟨⟨content, rest₂⟩, hcontent, hread⟩ := exists_of_bind_eq_ok hread
        obtain ⟨hmodest, hle⟩ := ih _ _ _ _ _ hsize hcontent
        dsimp only at hread
        cases hread
        exact ⟨.tag _ hmodest, by omega⟩
    · obtain ⟨item, hitem, hread⟩ := exists_of_bind_eq_ok hread
      cases hread
      exact ⟨modest_of_ofSimpleHead hitem, by omega⟩

theorem Item.modest_of_read {bytes : List UInt8} {x : Item} (hbytes : bytes.length < UInt64.size)
    (h : Item.read bytes = .ok x) : x.Modest := by
  rw [Item.read] at h
  split at h
  · cases h
  · split at h
    · next hread =>
      cases h
      exact (isModest_readItem _ _ _ _ _ _ hbytes hread).1
    · cases h
    · cases h

end SsaOpt.Cbor
