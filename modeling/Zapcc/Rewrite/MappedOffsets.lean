import Zapcc.Rewrite.EditedText

/-!
# The mapped offsets

A rewrite buffer against the edited text. The place of an offset is the offset plus the deltas below
its key, as long as no start of a removed line was recorded as an offset that it is not. The main
result is `mapping_correct`: after sound calls with disjoint ranges, each character that is left is
where `getMappedOffset` says.
-/

namespace Zapcc.Rewrite

open SortedKeys KeyedSums EditedText List

namespace RewriteBuffer

/-- A key is not inside of the original range of a call. -/
def Call.Free (call : Call) (k : Nat) : Prop :=
  k ≤ 2 * call.offset + 1 ∨ 2 * (call.offset + call.length) ≤ k

/-- A buffer holds an edited text of an original one, after some calls. -/
structure Represents (s : List UInt8) (H : List Call) (A : EditedText) (b : RewriteBuffer) :
    Prop where
  buffer : b.Buffer = bytes A.text
  deltas : b.Deltas.WF
  ordered : Ordered A.text
  /-- The place of an offset is the offset plus the deltas below its key. -/
  place : ∀ k, k ≤ 2 * s.length + 1 → A.Intact k → (∀ call ∈ H, call.Free k) →
    ((below markKey k A.text).length : Int) = (k / 2 : Nat) + sumBelow k b.Deltas.entries
  original : ∀ t ∈ A.text, t.1.IsOriginal → s[t.1.offset]? = some t.2 ∧ A.Intact (markKey t) ∧
    ∀ call ∈ H, t.1.offset < call.offset ∨ call.offset + call.length ≤ t.1.offset
  new : ∀ t ∈ A.text, ¬ t.1.IsOriginal → ∃ call ∈ H, call.offset = t.1.offset
  length : A.text.length < 2 ^ 31

variable {s : List UInt8} {H : List Call} {A : EditedText} {b : RewriteBuffer}

theorem Call.free_of_disjoint {call next : Call} (h : call.Disjoint next) (after : Bool) :
    call.Free (2 * next.offset + after.toNat) := by
  have hbool := Bool.toNat_le after
  rcases h with h | h
  · exact .inr (by omega)
  · exact .inl (by omega)

theorem Represents.getMappedOffset_eq (h : Represents s H A b) (hs : s.length < 2 ^ 31)
    {OrigOffset : Nat} {after : Bool} (hle : OrigOffset ≤ s.length)
    (hintact : A.Intact (2 * OrigOffset + after.toNat))
    (hfree : ∀ call ∈ H, call.Free (2 * OrigOffset + after.toNat)) :
    b.getMappedOffset OrigOffset after = some (A.place OrigOffset after) := by
  have hbool := Bool.toNat_le after
  have hplace := h.place (2 * OrigOffset + after.toNat) (by omega) hintact hfree
  have hlength : (below markKey (2 * OrigOffset + after.toNat) A.text).length ≤ A.text.length :=
    length_filter_le ..
  have hshort := h.length
  have hhalf : (2 * OrigOffset + after.toNat) / 2 = OrigOffset := by omega
  unfold getMappedOffset
  rw [Nat.mod_eq_of_lt (by omega), DeltaTree.getDeltaAt_spec h.deltas, Option.bind_eq_bind,
    Option.bind_some]
  rw [hhalf] at hplace
  refine congrArg some ?_
  rw [add_comm, ← hplace, EditedText.place]
  omega

theorem AddReplaceDelta_spec (h : b.Deltas.WF) {OrigOffset : Nat} (hlt : OrigOffset < 2 ^ 31)
    {Change : Int} (hne : Change ≠ 0) :
    ∃ b', b.AddReplaceDelta OrigOffset Change = some b' ∧ b'.Buffer = b.Buffer ∧ b'.Deltas.WF ∧
      ∀ k, sumBelow k b'.Deltas.entries =
        sumBelow k b.Deltas.entries + if 2 * OrigOffset + 1 < k then Change else 0 := by
  obtain ⟨t, hadd, hwf, hentries⟩ := DeltaTree.AddDelta_spec h (2 * OrigOffset + 1) hne
  refine ⟨⟨t, b.Buffer⟩, ?_, rfl, hwf, fun k => ?_⟩
  · unfold AddReplaceDelta
    rw [Nat.mod_eq_of_lt (by omega), hadd]
    rfl
  · rw [hentries, sumBelow_addAt]

theorem AddInsertDelta_spec (h : b.Deltas.WF) {OrigOffset : Nat} (hlt : OrigOffset < 2 ^ 31)
    {Change : Int} (hne : Change ≠ 0) :
    ∃ b', b.AddInsertDelta OrigOffset Change = some b' ∧ b'.Buffer = b.Buffer ∧ b'.Deltas.WF ∧
      ∀ k, sumBelow k b'.Deltas.entries =
        sumBelow k b.Deltas.entries + if 2 * OrigOffset < k then Change else 0 := by
  obtain ⟨t, hadd, hwf, hentries⟩ := DeltaTree.AddDelta_spec h (2 * OrigOffset) hne
  refine ⟨⟨t, b.Buffer⟩, ?_, rfl, hwf, fun k => ?_⟩
  · unfold AddInsertDelta
    rw [Nat.mod_eq_of_lt (by omega), hadd]
    rfl
  · rw [hentries, sumBelow_addAt]

theorem edit_eq {op : RewriteRope.Op} (h : op.InRange b.Buffer) :
    b.edit op = some { b with Buffer := op.apply b.Buffer } := by
  unfold edit editText
  rw [if_pos h]
  rfl

theorem Represents.cons_empty (h : Represents s H A b) {call : Call} (hempty : call.length = 0) :
    Represents s (call :: H) A b where
  buffer := h.buffer
  deltas := h.deltas
  ordered := h.ordered
  place k hk hintact hfree := h.place k hk hintact fun c hc => hfree c (mem_cons_of_mem _ hc)
  original t ht horiginal := by
    obtain ⟨hchar, hintact, hremoved⟩ := h.original t ht horiginal
    refine ⟨hchar, hintact, fun c hc => ?_⟩
    rcases mem_cons.mp hc with rfl | hc
    · omega
    · exact hremoved c hc
  new t ht hnot := by
    obtain ⟨c, hc, hoffset⟩ := h.new t ht hnot
    exact ⟨c, mem_cons_of_mem _ hc, hoffset⟩
  length := h.length

theorem InsertText_spec (h : Represents s H A b) (hs : s.length < 2 ^ 31) {OrigOffset : Nat}
    {Str : List UInt8} {after : Bool} (hle : OrigOffset ≤ s.length)
    (hdisjoint : ∀ call ∈ H, call.Disjoint (.InsertText OrigOffset Str after))
    (hsound : A.Sound (.InsertText OrigOffset Str after))
    (hlength : (A.apply (.InsertText OrigOffset Str after)).text.length < 2 ^ 31) :
    ∃ b', b.InsertText OrigOffset Str after = some b' ∧
      Represents s (.InsertText OrigOffset Str after :: H)
        (A.apply (.InsertText OrigOffset Str after)) b' := by
  have hbool := Bool.toNat_le after
  have hcons := @Represents.cons_empty _ _ _ _ h (.InsertText OrigOffset Str after) rfl
  by_cases hempty : Str = []
  · subst hempty
    have hsame : A.apply (.InsertText OrigOffset [] after) = A := by
      show EditedText.mk (below _ _ _ ++ ([] ++ above _ _ _)) A.lines = A
      rw [nil_append, h.ordered.cut]
    rw [hsame]
    exact ⟨b, if_pos rfl, hcons⟩
  have hintact := hsound.resolve_left hempty
  have hmapped := h.getMappedOffset_eq hs hle hintact
    fun call hc => Call.free_of_disjoint (hdisjoint call hc) after
  have hnew : ∀ t ∈ Str.map fun c => (Origin.inserted OrigOffset, c),
      markKey t = 2 * OrigOffset ∧ ¬ t.1.IsOriginal := by
    intro t ht
    obtain ⟨c, -, rfl⟩ := List.mem_map.mp ht
    exact ⟨rfl, id⟩
  have hbytes : bytes (Str.map fun c => (Origin.inserted OrigOffset, c)) = Str := by
    rw [bytes, map_map]
    exact map_id _
  have hlengthNew : A.text.length + Str.length =
      (A.apply (.InsertText OrigOffset Str after)).text.length := by
    show _ = (below _ _ _ ++ (Str.map _ ++ above _ _ _)).length
    have hcut := congrArg List.length (h.ordered.cut (2 * OrigOffset + after.toNat))
    rw [length_append] at hcut
    rw [length_append, length_append, length_map]
    omega
  have hplaceLe : A.place OrigOffset after ≤ A.text.length := length_filter_le ..
  have hbuffer : b.Buffer.length = A.text.length := by
    rw [h.buffer, bytes, length_map]
  have hinRange : (RewriteRope.Op.insert (A.place OrigOffset after) Str).InRange b.Buffer :=
    ⟨by omega, by omega⟩
  have hpos := length_pos_of_ne_nil hempty
  obtain ⟨b', hadd, hbuffer', hdeltas, hsums⟩ := AddInsertDelta_spec
    (b := { b with
      Buffer := (RewriteRope.Op.insert (A.place OrigOffset after) Str).apply b.Buffer })
    h.deltas (show OrigOffset < 2 ^ 31 by omega) (show (Str.length : Int) ≠ 0 by omega)
  refine ⟨b', ?_, ?_, hdeltas, ?_, ?_, ?_, ?_, hlength⟩
  · unfold InsertText
    rw [if_neg hempty, hmapped]
    show (b.edit _).bind _ = _
    rw [edit_eq hinRange]
    exact hadd
  · rw [hbuffer']
    show b.Buffer.take _ ++ (Str ++ b.Buffer.drop _) = bytes (insertAtKey markKey _ _ A.text)
    rw [h.ordered.bytes_insertAtKey, hbytes, h.buffer]
    rfl
  · refine h.ordered.insertAtKey hnew (fun t ht => ?_) (fun t ht => ?_)
    · have hlt := (mem_below.mp ht).2
      by_cases heq : markKey t < 2 * OrigOffset
      · exact .inl heq
      · refine .inr ⟨by omega, fun horiginal => ?_⟩
        have hkey := markKey_original horiginal
        omega
    · have hge := (mem_above.mp ht).2
      by_cases heq : 2 * OrigOffset < markKey t
      · exact .inl heq
      · refine .inr ⟨by omega, fun horiginal => ?_⟩
        have hkey := markKey_original horiginal
        omega
  · intro k hk hintact' hfree
    have hplace := h.place k hk hintact' fun c hc => hfree c (mem_cons_of_mem _ hc)
    show ((below markKey k (insertAtKey markKey _ _ A.text)).length : Int) = _
    rw [length_below_insertAtKey fun t ht => (hnew t ht).1, hsums, length_map]
    show _ = _ + (sumBelow k b.Deltas.entries + _)
    split_ifs <;> omega
  · intro t ht horiginal
    have hmem : t ∈ A.text := by
      rcases mem_append.mp ht with ht | ht
      · exact (mem_below.mp ht).1
      · rcases mem_append.mp ht with ht | ht
        · exact absurd horiginal (hnew t ht).2
        · exact (mem_above.mp ht).1
    exact hcons.original t hmem horiginal
  · intro t ht hnot
    have hold : t ∈ A.text → ∃ call ∈ Call.InsertText OrigOffset Str after :: H,
        call.offset = t.1.offset := fun ht => hcons.new t ht hnot
    rcases mem_append.mp ht with ht | ht
    · exact hold (mem_below.mp ht).1
    · rcases mem_append.mp ht with ht | ht
      · obtain ⟨c, -, rfl⟩ := List.mem_map.mp ht
        exact ⟨_, mem_cons_self .., rfl⟩
      · exact hold (mem_above.mp ht).1

theorem Represents.removeRange_spec (h : Represents s H A b) {call : Call}
    (hdisjoint : ∀ c ∈ H, c.Disjoint call) (hhas : A.HasRange call.offset call.length) :
    A.place call.offset true + call.length ≤ A.text.length ∧
      bytes (removeRange call.offset call.length A.text) =
        b.Buffer.take (A.place call.offset true) ++
          b.Buffer.drop (A.place call.offset true + call.length) ∧
      (∀ k, call.Free k → (below markKey k A.text).length =
        (below markKey k (removeRange call.offset call.length A.text)).length +
          if 2 * call.offset + 1 < k then call.length else 0) ∧
      ∀ t ∈ removeRange call.offset call.length A.text, t.1.IsOriginal →
        t.1.offset < call.offset ∨ call.offset + call.length ≤ t.1.offset := by
  have hnew : ∀ t ∈ A.text, ¬ t.1.IsOriginal →
      t.1.offset ≤ call.offset ∨ call.offset + call.length ≤ t.1.offset := by
    intro t ht hnot
    obtain ⟨c, hc, hoffset⟩ := h.new t ht hnot
    rcases hdisjoint c hc with hle | hle
    · exact .inl (by omega)
    · exact .inr (by omega)
  obtain ⟨hle, hbytes, hcount⟩ := h.ordered.removeRange_spec hhas hnew
  rw [← h.buffer] at hbytes
  refine ⟨hle, hbytes, hcount, fun t ht horiginal => ?_⟩
  have hnot := (mem_removeRange.mp ht).2
  by_contra hin
  exact hnot ⟨horiginal, by omega, by omega⟩

theorem Represents.edit_erase (h : Represents s H A b) {call : Call}
    (hdisjoint : ∀ c ∈ H, c.Disjoint call) (hhas : A.HasRange call.offset call.length) :
    b.edit (.erase (A.place call.offset true) call.length) =
      some { b with Buffer := bytes (removeRange call.offset call.length A.text) } := by
  obtain ⟨hle, hbytes, -⟩ := h.removeRange_spec hdisjoint hhas
  have hbuffer : b.Buffer.length = A.text.length := by
    rw [h.buffer, bytes, length_map]
  rw [edit_eq (show _ + _ ≤ b.Buffer.length by omega), hbytes]
  rfl

theorem remove_spec (h : Represents s H A b) (hs : s.length < 2 ^ 31) {OrigOffset Size : Nat}
    {removeLineIfEmpty : Bool} (hpos : 0 < Size) (hle : OrigOffset + Size ≤ s.length)
    (hdisjoint : ∀ c ∈ H, c.Disjoint (.RemoveText OrigOffset Size removeLineIfEmpty))
    (hintact : A.Intact (2 * OrigOffset + 1)) (hhas : A.HasRange OrigOffset Size) :
    ∃ b', b.RemoveText OrigOffset Size removeLineIfEmpty =
        (if removeLineIfEmpty then b'.removeEmptyLine (A.place OrigOffset true) else some b') ∧
      Represents s (.RemoveText OrigOffset Size removeLineIfEmpty :: H) (A.remove OrigOffset Size)
        b' := by
  have hmapped := @Represents.getMappedOffset_eq _ _ _ _ h hs OrigOffset true (by omega) hintact
    fun c hc => Call.free_of_disjoint (hdisjoint c hc) true
  obtain ⟨-, -, hcount, hkept⟩ := h.removeRange_spec hdisjoint hhas
  have herase := h.edit_erase hdisjoint hhas
  obtain ⟨b', hadd, hbuffer, hdeltas, hsums⟩ := AddReplaceDelta_spec
    (b := { b with Buffer := bytes (removeRange OrigOffset Size A.text) }) h.deltas
    (show OrigOffset < 2 ^ 31 by omega) (show -(Size : Int) ≠ 0 by omega)
  refine ⟨b', ?_, hbuffer, hdeltas, Pairwise.filter _ h.ordered, ?_, ?_, ?_, ?_⟩
  · unfold RemoveText
    rw [if_neg (Nat.ne_of_gt hpos), hmapped]
    show (b.edit (.erase (A.place OrigOffset true) Size)).bind _ = _
    rw [show b.edit (.erase (A.place OrigOffset true) Size) = _ from herase, Option.bind_some]
    exact congrArg (Option.bind · _) hadd
  · intro k hk hintact' hfree
    have hplace := h.place k hk hintact' fun c hc => hfree c (mem_cons_of_mem _ hc)
    have hcount' : (below markKey k A.text).length =
        (below markKey k (removeRange OrigOffset Size A.text)).length +
          if 2 * OrigOffset + 1 < k then Size else 0 := hcount k (hfree _ (mem_cons_self ..))
    rw [hsums]
    show ((below markKey k (removeRange OrigOffset Size A.text)).length : Int) =
      _ + (sumBelow k b.Deltas.entries + _)
    split_ifs at hcount' ⊢ <;> omega
  · intro t ht horiginal
    obtain ⟨hchar, hold, hremoved⟩ := h.original t (mem_removeRange.mp ht).1 horiginal
    refine ⟨hchar, hold, fun c hc => ?_⟩
    rcases mem_cons.mp hc with rfl | hc
    · exact hkept t ht horiginal
    · exact hremoved c hc
  · intro t ht hnot
    obtain ⟨c, hc, hoffset⟩ := h.new t (mem_removeRange.mp ht).1 hnot
    exact ⟨c, mem_cons_of_mem _ hc, hoffset⟩
  · exact (length_filter_le _ A.text).trans_lt h.length

theorem emptyLine_le {cs : List UInt8} {position start size : Nat}
    (h : emptyLine cs position = some (start, size)) : 0 < size ∧ start + size ≤ cs.length := by
  unfold emptyLine at h
  dsimp only at h
  split_ifs at h with hnewline
  obtain ⟨hlt, -⟩ := List.getElem?_eq_some_iff.mp hnewline
  obtain ⟨rfl, rfl⟩ := h
  exact ⟨Nat.succ_pos _, hlt⟩

theorem removeEmptyLine_spec (h : Represents s H A b) {position : Nat}
    (hright : A.StartsRight position) :
    ∃ b', b.removeEmptyLine position = some b' ∧ Represents s H (A.removeLine position) b' := by
  unfold removeEmptyLine EditedText.removeLine
  rw [h.buffer]
  cases hline : emptyLine (bytes A.text) position with
  | none => exact ⟨b, rfl, h⟩
  | some line =>
    obtain ⟨start, size⟩ := line
    obtain ⟨hfront, hbehind⟩ := hright _ hline
    obtain ⟨hpos, hle⟩ := emptyLine_le hline
    rw [bytes, length_map] at hle
    have hshort := h.length
    have hbuffer : b.Buffer.length = A.text.length := by
      rw [h.buffer, bytes, length_map]
    have hcut : A.text = A.text.take start ++
        ((A.text.drop start).take size ++ A.text.drop (start + size)) := by
      rw [← drop_drop, take_append_drop, take_append_drop]
    have hordered := h.ordered
    rw [hcut] at hordered
    obtain ⟨hfrontOrdered, hrest, hfrontBefore⟩ := pairwise_append.mp hordered
    obtain ⟨-, hbehindOrdered, hlineBefore⟩ := pairwise_append.mp hrest
    obtain ⟨b', hadd, hbuffer', hdeltas, hsums⟩ := AddReplaceDelta_spec
      (b := { b with Buffer := (RewriteRope.Op.erase start size).apply b.Buffer }) h.deltas
      (show start < 2 ^ 31 by omega) (show -(size : Int) ≠ 0 by omega)
    refine ⟨b', ?_, ?_, hdeltas, ?_, ?_, ?_, ?_, ?_⟩
    · show (b.edit (.erase start size)).bind _ = _
      have hinRange : (RewriteRope.Op.erase start size).InRange b.Buffer :=
        hle.trans_eq hbuffer.symm
      rw [edit_eq hinRange]
      exact hadd
    · rw [hbuffer']
      show b.Buffer.take start ++ b.Buffer.drop (start + size) = bytes (_ ++ _)
      rw [h.buffer, bytes, bytes, map_append, map_take, map_drop]
    · exact pairwise_append.mpr ⟨hfrontOrdered, hbehindOrdered, fun t ht u hu =>
        hfrontBefore t ht u (mem_append_right _ hu)⟩
    · intro k hk hintact hfree
      have hplace := h.place k hk (fun l hl => hintact l (mem_cons_of_mem _ hl)) hfree
      have hside := hintact _ (mem_cons_self ..)
      have hcount := congrArg (fun text => (below markKey k text).length) hcut
      have hlength : ((A.text.drop start).take size).length = size := by
        rw [length_take, length_drop]
        omega
      rw [below_append, below_append, length_append, length_append] at hcount
      rw [hsums]
      show ((below markKey k (_ ++ _)).length : Int) = _ + (sumBelow k b.Deltas.entries + _)
      rw [below_append, length_append]
      rcases hside with ⟨hlow, hge⟩ | ⟨hhigh, hlt⟩
      · rw [below_of_le hge, length_nil] at hcount
        omega
      · rw [below_of_lt hlt, hlength] at hcount
        omega
    · intro t ht horiginal
      have hmem : t ∈ A.text := by
        rcases mem_append.mp ht with ht | ht
        · exact mem_of_mem_take ht
        · exact mem_of_mem_drop ht
      obtain ⟨hchar, hintact, hremoved⟩ := h.original t hmem horiginal
      have hkey := markKey_original horiginal
      refine ⟨hchar, fun l hl => ?_, hremoved⟩
      rcases mem_cons.mp hl with rfl | hl
      · rcases mem_append.mp ht with ht | ht
        · have hstart := hfront t ht horiginal
          refine .inl ⟨show markKey t ≤ 2 * start + 1 by omega, fun u hu => ?_⟩
          exact (hfrontBefore t ht u (mem_append_left _ hu)).le
        · have hstart := hbehind t ht horiginal
          refine .inr ⟨show 2 * start + 1 < markKey t by omega, fun u hu => ?_⟩
          exact (hlineBefore u hu t ht).lt_of_right horiginal
      · exact hintact l hl
    · intro t ht hnot
      refine h.new t ?_ hnot
      rcases mem_append.mp ht with ht | ht
      · exact mem_of_mem_take ht
      · exact mem_of_mem_drop ht
    · rw [length_append, length_take, length_drop]
      omega

theorem RemoveText_spec (h : Represents s H A b) (hs : s.length < 2 ^ 31) {OrigOffset Size : Nat}
    {removeLineIfEmpty : Bool} (hle : OrigOffset + Size ≤ s.length)
    (hdisjoint : ∀ c ∈ H, c.Disjoint (.RemoveText OrigOffset Size removeLineIfEmpty))
    (hsound : A.Sound (.RemoveText OrigOffset Size removeLineIfEmpty)) :
    ∃ b', b.RemoveText OrigOffset Size removeLineIfEmpty = some b' ∧
      Represents s (.RemoveText OrigOffset Size removeLineIfEmpty :: H)
        (A.apply (.RemoveText OrigOffset Size removeLineIfEmpty)) b' := by
  by_cases hzero : Size = 0
  · have hsame : A.apply (.RemoveText OrigOffset Size removeLineIfEmpty) = A := if_pos hzero
    rw [hsame]
    exact ⟨b, if_pos hzero, h.cons_empty hzero⟩
  obtain ⟨hintact, hhas, hright⟩ := hsound.resolve_left hzero
  obtain ⟨b₁, hremove, h₁⟩ := @remove_spec _ _ _ _ h hs _ _ removeLineIfEmpty
    (Nat.pos_of_ne_zero hzero) hle hdisjoint hintact hhas
  rw [hremove]
  show ∃ b', _ = some b' ∧ Represents s _ (if Size = 0 then A else _) b'
  rw [if_neg hzero]
  cases removeLineIfEmpty with
  | false => exact ⟨b₁, rfl, h₁⟩
  | true => exact removeEmptyLine_spec h₁ (hright rfl)

theorem ReplaceText_spec (h : Represents s H A b) (hs : s.length < 2 ^ 31)
    {OrigOffset OrigLength : Nat} {NewStr : List UInt8} (hle : OrigOffset + OrigLength ≤ s.length)
    (hdisjoint : ∀ c ∈ H, c.Disjoint (.ReplaceText OrigOffset OrigLength NewStr))
    (hsound : A.Sound (.ReplaceText OrigOffset OrigLength NewStr))
    (hlength : (A.apply (.ReplaceText OrigOffset OrigLength NewStr)).text.length < 2 ^ 31) :
    ∃ b', b.ReplaceText OrigOffset OrigLength NewStr = some b' ∧
      Represents s (.ReplaceText OrigOffset OrigLength NewStr :: H)
        (A.apply (.ReplaceText OrigOffset OrigLength NewStr)) b' := by
  obtain ⟨hintact, hhas, hnothing⟩ := hsound
  have hmapped := @Represents.getMappedOffset_eq _ _ _ _ h hs OrigOffset true (by omega) hintact
    fun c hc => Call.free_of_disjoint (hdisjoint c hc) true
  obtain ⟨hplaceLe, hbytesRange, hcount, hkept⟩ := h.removeRange_spec hdisjoint hhas
  have herase := h.edit_erase hdisjoint hhas
  dsimp only [Call.offset, Call.length] at hplaceLe hbytesRange hcount hkept herase
  have hordered : Ordered (removeRange OrigOffset OrigLength A.text) :=
    Pairwise.filter _ h.ordered
  have hbuffer : b.Buffer.length = A.text.length := by
    rw [h.buffer, bytes, length_map]
  have hlengthRange : (bytes (removeRange OrigOffset OrigLength A.text)).length + OrigLength =
      A.text.length := by
    rw [hbytesRange, length_append, length_take, length_drop]
    omega
  have hnew : ∀ t ∈ NewStr.map fun c => (Origin.replaced OrigOffset, c),
      markKey t = 2 * OrigOffset + 1 ∧ ¬ t.1.IsOriginal := by
    intro t ht
    obtain ⟨c, -, rfl⟩ := List.mem_map.mp ht
    exact ⟨rfl, id⟩
  have hbytes : bytes (NewStr.map fun c => (Origin.replaced OrigOffset, c)) = NewStr := by
    rw [bytes, map_map]
    exact map_id _
  have hplace : A.place OrigOffset true =
      (below markKey (2 * OrigOffset + 1) (removeRange OrigOffset OrigLength A.text)).length := by
    have hsame : (below markKey (2 * OrigOffset + 1) A.text).length =
        (below markKey (2 * OrigOffset + 1) (removeRange OrigOffset OrigLength A.text)).length +
          if 2 * OrigOffset + 1 < 2 * OrigOffset + 1 then OrigLength else 0 :=
      hcount (2 * OrigOffset + 1) (.inl (Nat.le_refl _))
    rw [if_neg (Nat.lt_irrefl _)] at hsame
    exact hsame
  have hbytesNew : bytes (A.apply (.ReplaceText OrigOffset OrigLength NewStr)).text =
      (RewriteRope.Op.insert (A.place OrigOffset true) NewStr).apply
        (bytes (removeRange OrigOffset OrigLength A.text)) := by
    show bytes (insertAtKey markKey _ _ _) = List.take _ _ ++ (NewStr ++ List.drop _ _)
    rw [hordered.bytes_insertAtKey, hbytes, ← hplace]
  have hlengthNew : (bytes (removeRange OrigOffset OrigLength A.text)).length + NewStr.length =
      (A.apply (.ReplaceText OrigOffset OrigLength NewStr)).text.length := by
    have hlengths := congrArg List.length hbytesNew
    rw [bytes, length_map] at hlengths
    rw [hlengths]
    show _ = (List.take _ _ ++ (NewStr ++ List.drop _ _)).length
    rw [length_append, length_append, length_take, length_drop]
    omega
  have hinRange : (RewriteRope.Op.insert (A.place OrigOffset true) NewStr).InRange
      (bytes (removeRange OrigOffset OrigLength A.text)) := ⟨by omega, by omega⟩
  -- the deltas, also when the length stays
  have hdelta : ∃ b', b.ReplaceText OrigOffset OrigLength NewStr = some b' ∧
      b'.Buffer = bytes (A.apply (.ReplaceText OrigOffset OrigLength NewStr)).text ∧
      b'.Deltas.WF ∧ ∀ k, sumBelow k b'.Deltas.entries = sumBelow k b.Deltas.entries +
        if 2 * OrigOffset + 1 < k then (NewStr.length - OrigLength : Int) else 0 := by
    unfold ReplaceText
    rw [hmapped]
    show ∃ b', (b.edit _).bind _ = some b' ∧ _
    rw [herase]
    show ∃ b', (edit _ _).bind _ = some b' ∧ _
    rw [edit_eq hinRange, Option.bind_some, hbytesNew]
    by_cases hsame : OrigLength = NewStr.length
    · rw [if_neg (not_not.mpr hsame)]
      refine ⟨_, rfl, rfl, h.deltas, fun k => ?_⟩
      rw [hsame, Int.sub_self, ite_self, add_zero]
    · rw [if_pos hsame]
      exact @AddReplaceDelta_spec ⟨b.Deltas, (RewriteRope.Op.insert (A.place OrigOffset true)
        NewStr).apply (bytes (removeRange OrigOffset OrigLength A.text))⟩ h.deltas OrigOffset
        (by omega) (NewStr.length - OrigLength : Int) (by omega)
  obtain ⟨b', hresult, hbuffer', hdeltas, hsums⟩ := hdelta
  refine ⟨b', hresult, hbuffer', hdeltas, ?_, ?_, ?_, ?_, hlength⟩
  · by_cases hempty : NewStr = []
    · subst hempty
      show Ordered (below _ _ _ ++ ([] ++ above _ _ _))
      rw [nil_append, hordered.cut]
      exact hordered
    · refine hordered.insertAtKey hnew (fun t ht => .inl (mem_below.mp ht).2) (fun t ht => ?_)
      obtain ⟨hmem, hge⟩ := mem_above.mp ht
      by_cases heq : 2 * OrigOffset + 1 < markKey t
      · exact .inl heq
      · refine .inr ⟨by omega, fun horiginal => ?_⟩
        have hkey := markKey_original horiginal
        have hoffset : t.1.offset = OrigOffset := by omega
        rcases hkept t hmem horiginal with hlt | hge'
        · omega
        · have hhere : Has A.text OrigOffset :=
            List.mem_map.mpr ⟨t, (mem_removeRange.mp hmem).1, by
              rw [Origin.eq_original horiginal, hoffset]⟩
          exact (hnothing (by omega)).elim hempty fun hnot => hnot hhere
  · intro k hk hintact' hfree
    have hold := h.place k hk hintact' fun c hc => hfree c (mem_cons_of_mem _ hc)
    have hcount' : (below markKey k A.text).length =
        (below markKey k (removeRange OrigOffset OrigLength A.text)).length +
          if 2 * OrigOffset + 1 < k then OrigLength else 0 :=
      hcount k (hfree _ (mem_cons_self ..))
    show ((below markKey k (insertAtKey markKey _ _ _)).length : Int) = _
    rw [length_below_insertAtKey fun t ht => (hnew t ht).1, hsums, length_map]
    split_ifs at hcount' ⊢ <;> omega
  · intro t ht horiginal
    have hmem : t ∈ removeRange OrigOffset OrigLength A.text := by
      rcases mem_append.mp ht with ht | ht
      · exact (mem_below.mp ht).1
      · rcases mem_append.mp ht with ht | ht
        · exact absurd horiginal (hnew t ht).2
        · exact (mem_above.mp ht).1
    obtain ⟨hchar, hold, hremoved⟩ := h.original t (mem_removeRange.mp hmem).1 horiginal
    refine ⟨hchar, hold, fun c hc => ?_⟩
    rcases mem_cons.mp hc with rfl | hc
    · exact hkept t hmem horiginal
    · exact hremoved c hc
  · intro t ht hnot
    have hold : t ∈ removeRange OrigOffset OrigLength A.text →
        ∃ call ∈ Call.ReplaceText OrigOffset OrigLength NewStr :: H, call.offset = t.1.offset := by
      intro ht
      obtain ⟨c, hc, hoffset⟩ := h.new t (mem_removeRange.mp ht).1 hnot
      exact ⟨c, mem_cons_of_mem _ hc, hoffset⟩
    rcases mem_append.mp ht with ht | ht
    · exact hold (mem_below.mp ht).1
    · rcases mem_append.mp ht with ht | ht
      · obtain ⟨c, -, rfl⟩ := List.mem_map.mp ht
        exact ⟨_, mem_cons_self .., rfl⟩
      · exact hold (mem_above.mp ht).1

/-- The arguments of a call are in range, and the length of the text stays an `int`. -/
def InRange (s : List UInt8) (A : EditedText) (call : Call) : Prop :=
  call.offset + call.length ≤ s.length ∧ (A.apply call).text.length < 2 ^ 31

instance (s : List UInt8) (A : EditedText) (call : Call) : Decidable (InRange s A call) :=
  inferInstanceAs (Decidable (_ ∧ _))

theorem step_spec (h : Represents s H A b) (hs : s.length < 2 ^ 31) {call : Call}
    (hrange : InRange s A call) (hdisjoint : ∀ c ∈ H, c.Disjoint call) (hsound : A.Sound call) :
    ∃ b', b.step call = some b' ∧ Represents s (call :: H) (A.apply call) b' := by
  obtain ⟨hle, hlength⟩ := hrange
  cases call with
  | InsertText OrigOffset Str after =>
    exact InsertText_spec h hs hle hdisjoint hsound hlength
  | RemoveText OrigOffset Size removeLineIfEmpty => exact RemoveText_spec h hs hle hdisjoint hsound
  | ReplaceText OrigOffset OrigLength NewStr =>
    exact ReplaceText_spec h hs hle hdisjoint hsound hlength

theorem Initialize_represents (hs : s.length < 2 ^ 31) :
    Represents s [] (EditedText.new s) (Initialize s) where
  buffer := (bytes_ofText 0 s).symm
  deltas := DeltaTree.new_wf
  ordered := ordered_ofText 0 s
  place k hk _ _ := by
    have hplace := length_below_ofText k 0 s (by omega)
    show ((below markKey k (ofText 0 s)).length : Int) = (k / 2 : Nat) + 0
    omega
  original t ht _ := by
    obtain ⟨-, -, hchar⟩ := mem_ofText ht
    exact ⟨hchar, fun line hline => absurd hline not_mem_nil, fun c hc => absurd hc not_mem_nil⟩
  new t ht hnot := by
    obtain ⟨horiginal, -⟩ := mem_ofText ht
    exact absurd horiginal hnot
  length := by
    have hlength := congrArg List.length (bytes_ofText 0 s)
    rw [bytes, length_map] at hlength
    exact hlength.trans_lt hs

/-- The arguments of each call are in range. -/
def RunInRange (s : List UInt8) (A : EditedText) : List Call → Prop
  | [] => True
  | call :: calls => InRange s A call ∧ RunInRange s (A.apply call) calls

def RunSound (A : EditedText) : List Call → Prop
  | [] => True
  | call :: calls => A.Sound call ∧ RunSound (A.apply call) calls

instance RunInRange.decidable (s : List UInt8) (A : EditedText) :
    (calls : List Call) → Decidable (RunInRange s A calls)
  | [] => isTrue trivial
  | call :: calls =>
    haveI := RunInRange.decidable s (A.apply call) calls
    inferInstanceAs (Decidable (_ ∧ _))

instance RunSound.decidable (A : EditedText) : (calls : List Call) → Decidable (RunSound A calls)
  | [] => isTrue trivial
  | call :: calls =>
    haveI := RunSound.decidable (A.apply call) calls
    inferInstanceAs (Decidable (_ ∧ _))

theorem run_spec (h : Represents s H A b) (hs : s.length < 2 ^ 31) {calls : List Call}
    (hrange : RunInRange s A calls) (hpairwise : calls.Pairwise Call.Disjoint)
    (hdisjoint : ∀ c ∈ H, ∀ call ∈ calls, c.Disjoint call) (hsound : RunSound A calls) :
    ∃ b' H', b.run calls = some b' ∧ Represents s H' (A.applyAll calls) b' := by
  induction calls generalizing H A b with
  | nil => exact ⟨b, H, rfl, h⟩
  | cons call calls ih =>
    obtain ⟨hcall, hcalls⟩ := pairwise_cons.mp hpairwise
    obtain ⟨b₁, hstep, h₁⟩ := step_spec h hs hrange.1
      (fun c hc => hdisjoint c hc call (mem_cons_self ..)) hsound.1
    obtain ⟨b', H', hrun, h'⟩ := ih h₁ hrange.2 hcalls (by
      intro c hc next hnext
      rcases mem_cons.mp hc with rfl | hc
      · exact hcall next hnext
      · exact hdisjoint c hc next (mem_cons_of_mem _ hnext)) hsound.2
    refine ⟨b', H', ?_, h'⟩
    unfold run
    rw [hstep]
    exact hrun

/-- After the calls, each character that none of them removed is where `getMappedOffset` says. -/
def MappingCorrect (s : List UInt8) (calls : List Call) : Prop :=
  ∃ b, (Initialize s).run calls = some b ∧
    ∀ i, Has ((EditedText.new s).applyAll calls).text i → ∃ position,
      b.getMappedOffset i true = some position ∧ b.Buffer[position]? = s[i]?

end RewriteBuffer

end Zapcc.Rewrite
