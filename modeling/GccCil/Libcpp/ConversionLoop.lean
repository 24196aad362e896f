import GccCil.Libcpp.ConversionCursors

/-!
# The conversion loop

The loop of `conversion_loop` over the cursors.  It refines the loop over the
bytes left, and that one appends the conversions of the successive characters,
however much room there is at the start: a converter that asks for room has
moved nothing, and one that succeeds does what it would do with more room.
-/

namespace GccCil.Libcpp.Charset

def Uniform (convert : List UInt8 → Nat → Converted) : Prop :=
  ∀ inbuf {left room : Nat}, left ≤ room →
    convert inbuf left = .error .e2big ∨ convert inbuf left = convert inbuf room

theorem oneCppcharToUtf8_uniform (c : Nat) (rest : List UInt8) {left room : Nat}
    (more : left ≤ room) :
    ((oneCppcharToUtf8 c left).bind fun bytes => (.ok (bytes, rest) : Converted)) =
        .error .e2big ∨
      ((oneCppcharToUtf8 c left).bind fun bytes => (.ok (bytes, rest) : Converted)) =
        (oneCppcharToUtf8 c room).bind fun bytes => .ok (bytes, rest) := by
  unfold oneCppcharToUtf8
  dsimp only
  generalize (if c < 0x80 then [UInt8.ofNat c] else encodeSequence c 1 []) = bytes
  by_cases full : left < bytes.length
  · rw [if_pos full]
    exact .inl rfl
  · rw [if_neg full, if_neg (by omega)]
    exact .inr rfl

theorem uniform_room {left room size : Nat} (more : left ≤ room) (converted : Converted) :
    (if left < size then .error .e2big else converted) = (.error .e2big : Converted) ∨
      (if left < size then .error .e2big else converted) =
        if room < size then .error .e2big else converted := by
  by_cases full : left < size
  · exact .inl (if_pos full)
  · rw [if_neg full, if_neg (by omega)]
    exact .inr rfl

theorem uniform_guard {fails : Prop} [Decidable fails] {errno : Errno}
    {first second : Converted} (passes : first = .error .e2big ∨ first = second) :
    (if fails then .error errno else first) = (.error .e2big : Converted) ∨
      (if fails then .error errno else first) = if fails then .error errno else second := by
  by_cases failed : fails
  · rw [if_pos failed, if_pos failed]
    exact .inr rfl
  · rw [if_neg failed, if_neg failed]
    exact passes

theorem utf8ToUtf32_uniform (bigend : Bool) : Uniform (oneUtf8ToUtf32 bigend) :=
  fun _ _ _ more => uniform_room more _

theorem utf8ToUtf16_uniform (bigend : Bool) : Uniform (oneUtf8ToUtf16 bigend) := by
  intro inbuf left room more
  unfold oneUtf8ToUtf16
  cases oneUtf8ToCppchar inbuf with
  | error errno => exact .inr rfl
  | ok value =>
    refine uniform_guard ?_
    by_cases unit : value.1 < 0xFFFF
    · simp only [unit, if_true]
      exact uniform_room more _
    · simp only [unit, if_false]
      exact uniform_room more _

theorem utf32ToUtf8_uniform (bigend : Bool) : Uniform (oneUtf32ToUtf8 bigend) := by
  intro inbuf left room more
  unfold oneUtf32ToUtf8
  split
  · exact uniform_guard (oneCppcharToUtf8_uniform _ _ more)
  · exact .inr rfl

theorem utf16ToUtf8_uniform (bigend : Bool) : Uniform (oneUtf16ToUtf8 bigend) := by
  intro inbuf left room more
  unfold oneUtf16ToUtf8
  split
  · refine uniform_guard ?_
    split
    · split
      · exact uniform_guard (oneCppcharToUtf8_uniform _ _ more)
      · exact .inr rfl
    · exact oneCppcharToUtf8_uniform _ _ more
  · exact .inr rfl

inductive StringConversion where
  | utf8Utf16
  | utf8Utf32
  | utf16Utf8
  | utf32Utf8
  deriving DecidableEq, Repr

namespace StringConversion

def one : StringConversion → OneConversion
  | utf8Utf16 => conversion oneUtf8ToUtf16 utf8ToUtf16_transcodes oneUtf8ToUtf16_e2big
  | utf8Utf32 => conversion oneUtf8ToUtf32 utf8ToUtf32_transcodes oneUtf8ToUtf32_e2big
  | utf16Utf8 => conversion oneUtf16ToUtf8 utf16ToUtf8_transcodes oneUtf16ToUtf8_e2big
  | utf32Utf8 => conversion oneUtf32ToUtf8 utf32ToUtf8_transcodes oneUtf32ToUtf8_e2big

def converter : StringConversion → Bool → Converter
  | utf8Utf16 => Converter.utf8ToUtf16
  | utf8Utf32 => Converter.utf8ToUtf32
  | utf16Utf8 => Converter.utf16ToUtf8
  | utf32Utf8 => Converter.utf32ToUtf8

theorem refines (conversion : StringConversion) (bigend : Bool) :
    Refines (conversion.converter bigend) (conversion.one.convert bigend) := by
  cases conversion with
  | utf8Utf16 => exact utf8ToUtf16_refines bigend
  | utf8Utf32 => exact utf8ToUtf32_refines bigend
  | utf16Utf8 => exact utf16ToUtf8_refines bigend
  | utf32Utf8 => exact utf32ToUtf8_refines bigend

theorem uniform (conversion : StringConversion) (bigend : Bool) :
    Uniform (conversion.one.convert bigend) := by
  cases conversion with
  | utf8Utf16 => exact utf8ToUtf16_uniform bigend
  | utf8Utf32 => exact utf8ToUtf32_uniform bigend
  | utf16Utf8 => exact utf16ToUtf8_uniform bigend
  | utf32Utf8 => exact utf32ToUtf8_uniform bigend

end StringConversion

/-- The conversions of the successive characters, each with room for it, or the
error of the first character that is ill-formed or incomplete. -/
def conversions (one : OneConversion) (bigend : Bool) (inbuf : List UInt8) :
    Except Errno (List UInt8) :=
  if inbuf = [] then .ok []
  else
    match _converted : one.convert bigend inbuf outbufBlockSize with
    | .ok (written, rest) => (conversions one bigend rest).map (written ++ ·)
    | .error errno => .error errno
  termination_by inbuf.length
  decreasing_by exact one.reads _converted

theorem conversions_nil (one : OneConversion) (bigend : Bool) :
    conversions one bigend [] = .ok [] := by
  rw [conversions, if_pos rfl]

theorem conversions_ok {one : OneConversion} {bigend : Bool} {inbuf written rest : List UInt8}
    (converted : one.convert bigend inbuf outbufBlockSize = .ok (written, rest)) :
    conversions one bigend inbuf = (conversions one bigend rest).map (written ++ ·) := by
  have shorter := one.reads converted
  rw [conversions, if_neg (by rintro rfl; simp at shorter)]
  split
  · rename_i written' rest' converted'
    rw [converted, Except.ok.injEq, Prod.mk.injEq] at converted'
    obtain ⟨rfl, rfl⟩ := converted'
    rfl
  · rename_i errno failed
    rw [converted] at failed
    cases failed

theorem conversions_error {one : OneConversion} {bigend : Bool} {inbuf : List UInt8}
    {errno : Errno} (nonempty : inbuf ≠ [])
    (failed : one.convert bigend inbuf outbufBlockSize = .error errno) :
    conversions one bigend inbuf = .error errno := by
  rw [conversions, if_neg nonempty]
  split
  · rename_i written rest converted
    rw [failed] at converted
    cases converted
  · rename_i errno' failed'
    rw [failed, Except.error.injEq] at failed'
    rw [failed']

theorem StringConversion.convert_left (conversion : StringConversion) {bigend : Bool}
    {inbuf : List UInt8} {left : Nat}
    (noE2big : conversion.one.convert bigend inbuf left ≠ .error .e2big) :
    conversion.one.convert bigend inbuf left =
      conversion.one.convert bigend inbuf outbufBlockSize := by
  rcases le_total left outbufBlockSize with less | more
  · exact (conversion.uniform bigend inbuf less).resolve_left noE2big
  · refine ((conversion.uniform bigend inbuf more).resolve_left ?_).symm
    intro isE2big
    exact absurd (conversion.one.fits isE2big) (lt_irrefl _)

theorem StringConversion.convert_ok (conversion : StringConversion) {bigend : Bool}
    {inbuf written rest : List UInt8} {left : Nat}
    (converted : conversion.one.convert bigend inbuf left = .ok (written, rest)) :
    conversion.one.convert bigend inbuf outbufBlockSize = .ok (written, rest) := by
  rw [← conversion.convert_left, converted]
  rw [converted]
  intro isE2big
  cases isE2big

theorem conversionLoop_eq (conversion : StringConversion) (bigend : Bool) (inbuf : List UInt8)
    (buf : Strbuf) :
    (conversionLoop conversion.one bigend inbuf buf).map Strbuf.text =
      (conversions conversion.one bigend inbuf).map (buf.text ++ ·) := by
  induction inbuf, buf using conversionLoop.induct conversion.one bigend with
  | case1 inbuf buf written converted =>
    have block := conversion.convert_ok converted
    rw [conversionLoop_ok converted, if_pos rfl, conversions_ok block,
      conversions_nil]
    simp [Except.map, Strbuf.append]
  | case2 inbuf buf written rest converted more ih =>
    have block := conversion.convert_ok converted
    rw [conversionLoop_ok converted, if_neg more, conversions_ok block,
      ih]
    cases conversions conversion.one bigend rest with
    | error errno => rfl
    | ok output => simp [Except.map, Strbuf.append]
  | case3 buf errno failed =>
    rw [conversionLoop_error failed, if_pos rfl, conversions_nil]
    simp [Except.map]
  | case4 inbuf buf nonempty failed ih =>
    rw [conversionLoop_error failed, if_neg nonempty, if_pos rfl, ih]
    rfl
  | case5 inbuf buf errno failed nonempty notE2big =>
    have block := conversion.convert_left (by rw [failed]; simpa using notE2big)
    rw [conversionLoop_error failed, if_neg nonempty, if_neg notE2big,
      conversions_error nonempty (block.symm.trans failed)]
    rfl

/-- `struct _cpp_strbuf`: the bytes that are allocated, the first `len` of them in use. -/
structure Buffer where
  text : List UInt8
  len : Nat
  fits : len ≤ text.length
  deriving Repr

/-- What the loop returns: `errno` where it returns `false`, and the buffer. -/
structure Returned where
  errno : Option Errno
  text : List UInt8
  len : Nat
  deriving DecidableEq, Repr

/-- `inbuf`, `inbytesleft`, `outbuf` and `outbytesleft` at the start. -/
def startCursors (source : List UInt8) (buffer : Buffer) : Cursors where
  inbuf := 0
  inbytesleft := source.length
  outbuf := buffer.len
  outbytesleft := buffer.text.length - buffer.len
  text := buffer.text

def enlarge (block : List UInt8) (s : Cursors) : Cursors :=
  let outbytesleft := s.outbytesleft + outbufBlockSize
  let text := s.text ++ block
  { s with text, outbytesleft, outbuf := text.length - outbytesleft }

/-- One call of the converter, and what is done with its result.  The bytes of a new
block may be any. -/
def conversionStep (converter : Converter) (source : List UInt8)
    (fresh : Nat → Fin outbufBlockSize → UInt8) (len : Nat) (s : Cursors) :
    Returned ⊕ Cursors :=
  match converter source s with
  | (rval, s) =>
    if s.inbytesleft ≠ 0 ∧ rval = none then .inr s
    else if s.inbytesleft = 0 then
      .inl { errno := none, text := s.text, len := s.text.length - s.outbytesleft }
    else if rval ≠ some .e2big then .inl { errno := rval, text := s.text, len }
    else .inr (enlarge (List.ofFn (fresh s.text.length)) s)

def conversionRun (converter : Converter) (source : List UInt8)
    (fresh : Nat → Fin outbufBlockSize → UInt8) (len : Nat) : Nat → Cursors → Option Returned
  | 0, _ => none
  | fuel + 1, s =>
    match conversionStep converter source fresh len s with
    | .inl returned => some returned
    | .inr s => conversionRun converter source fresh len fuel s

/-- The loop returns: with every fuel from some on, the run ends there. -/
def Ends (converter : Converter) (source : List UInt8)
    (fresh : Nat → Fin outbufBlockSize → UInt8) (len : Nat) (s : Cursors)
    (returned : Returned) : Prop :=
  ∃ bound, ∀ fuel ≥ bound, conversionRun converter source fresh len fuel s = some returned

theorem Ends.of_returned {converter : Converter} {source : List UInt8}
    {fresh : Nat → Fin outbufBlockSize → UInt8} {len : Nat} {s : Cursors} {returned : Returned}
    (step : conversionStep converter source fresh len s = .inl returned) :
    Ends converter source fresh len s returned := by
  refine ⟨1, fun fuel enough => ?_⟩
  obtain ⟨fuel, rfl⟩ := Nat.exists_eq_add_of_le' enough
  rw [conversionRun, step]

theorem Ends.of_next {converter : Converter} {source : List UInt8}
    {fresh : Nat → Fin outbufBlockSize → UInt8} {len : Nat} {s next : Cursors}
    {returned : Returned} (step : conversionStep converter source fresh len s = .inr next)
    (ends : Ends converter source fresh len next returned) :
    Ends converter source fresh len s returned := by
  obtain ⟨bound, runs⟩ := ends
  refine ⟨bound + 1, fun fuel enough => ?_⟩
  obtain ⟨fuel, rfl⟩ := Nat.exists_eq_add_of_le' (Nat.le_of_add_left_le enough)
  rw [conversionRun, step]
  exact runs fuel (by omega)

theorem store_append (before rest bytes : List UInt8) (room : bytes.length ≤ rest.length) :
    store (before ++ rest) before.length bytes = before ++ bytes ++ rest.drop bytes.length := by
  induction bytes generalizing before rest with
  | nil => simp [store]
  | cons byte bytes ih =>
    cases rest with
    | nil => simp at room
    | cons first rest =>
      have step := ih (before ++ [byte]) rest (by simpa using room)
      simpa [store] using step

theorem length_store (text : List UInt8) (i : Nat) (bytes : List UInt8) :
    (store text i bytes).length = text.length := by
  induction bytes generalizing text i with
  | nil => rfl
  | cons byte bytes ih =>
    rw [store, ih, List.length_set]

structure Tracks (source : List UInt8) (s : Cursors) (inbuf : List UInt8) (buf : Strbuf) :
    Prop where
  within : s.Within source
  left : inbuf = source.drop s.inbuf
  held : buf.text <+: s.text
  pointer : s.outbuf = buf.text.length
  room : s.outbytesleft = buf.outbytesleft
  allocated : s.text.length = buf.asize

namespace Tracks

variable {source inbuf : List UInt8} {s : Cursors} {buf : Strbuf}

theorem inbytesleft (tracks : Tracks source s inbuf buf) : s.inbytesleft = inbuf.length := by
  rw [tracks.left, tracks.within.length_drop]

theorem len (tracks : Tracks source s inbuf buf) :
    s.text.length - s.outbytesleft = buf.text.length := by
  rw [tracks.allocated, tracks.room, Strbuf.outbytesleft, Nat.sub_sub_self buf.fits]

theorem moves (tracks : Tracks source s inbuf buf) {after : Cursors} {written rest : List UInt8}
    (moved : Moves source s after written rest) (enough : written.length ≤ buf.outbytesleft) :
    Tracks source after rest (buf.append written enough) := by
  obtain ⟨count, bounded, rfl, rfl⟩ := moved
  obtain ⟨free, isText⟩ := tracks.held
  have within := tracks.within
  have allocated := tracks.allocated
  have fits := buf.fits
  have room := tracks.room
  have freeRoom : written.length ≤ free.length := by
    rw [← isText, List.length_append] at allocated
    rw [Strbuf.outbytesleft] at enough
    omega
  rw [Cursors.Within] at within
  refine ⟨?_, rfl, ?_, ?_, ?_, ?_⟩
  · change s.inbuf + count + (s.inbytesleft - count) = source.length
    omega
  · change buf.text ++ written <+: store s.text s.outbuf written
    rw [tracks.pointer, ← isText, store_append _ _ _ freeRoom]
    exact List.prefix_append _ _
  · change s.outbuf + written.length = (buf.text ++ written).length
    rw [List.length_append, tracks.pointer]
  · change s.outbytesleft - written.length = buf.asize - (buf.text ++ written).length
    rw [List.length_append, room, Strbuf.outbytesleft, Nat.sub_sub]
  · exact (length_store _ _ _).trans allocated

theorem enlarge (tracks : Tracks source s inbuf buf) {block : List UInt8}
    (size : block.length = outbufBlockSize) : Tracks source (enlarge block s) inbuf buf.grow := by
  have allocated := tracks.allocated
  have room := tracks.room
  rw [Strbuf.outbytesleft] at room
  constructor
  · simp only [Cursors.Within, Charset.enlarge]
    exact tracks.within
  · simp only [Charset.enlarge]
    exact tracks.left
  · simp only [Charset.enlarge]
    exact tracks.held.trans (List.prefix_append _ _)
  · simp only [Charset.enlarge, List.length_append]
    rw [size, allocated, room, Nat.add_sub_add_right]
    exact Nat.sub_sub_self buf.fits
  · simp only [Charset.enlarge]
    rw [Strbuf.outbytesleft_grow, tracks.room]
  · simp only [Charset.enlarge, List.length_append]
    rw [size, allocated, Strbuf.grow]

theorem start (source : List UInt8) (buffer : Buffer) :
    Tracks source (startCursors source buffer) source
      ⟨buffer.text.take buffer.len, buffer.text.length,
        by rw [List.length_take]; exact Nat.min_le_right _ _⟩ := by
  have length : (buffer.text.take buffer.len).length = buffer.len := by
    rw [List.length_take, Nat.min_eq_left buffer.fits]
  refine ⟨Nat.zero_add _, rfl, List.take_prefix _ _, length.symm, ?_, rfl⟩
  exact congrArg (buffer.text.length - ·) length.symm

end Tracks

def Answers (len : Nat) (buf : Strbuf) (returned : Returned) : Except Errno Strbuf → Prop
  | .ok after =>
    returned.errno = none ∧ returned.len = after.text.length ∧ after.text <+: returned.text
  | .error errno =>
    returned.errno = some errno ∧ returned.len = len ∧ buf.text <+: returned.text

theorem conversionRun_refines (conversion : StringConversion) (bigend : Bool)
    (source : List UInt8) (fresh : Nat → Fin outbufBlockSize → UInt8) (len : Nat)
    (inbuf : List UInt8) (buf : Strbuf) {s : Cursors} (tracks : Tracks source s inbuf buf) :
    ∃ returned, Ends (conversion.converter bigend) source fresh len s returned ∧
      Answers len buf returned (conversionLoop conversion.one bigend inbuf buf) := by
  induction inbuf, buf using conversionLoop.induct conversion.one bigend generalizing s with
  | case1 inbuf buf written converted =>
    have agrees := conversion.refines bigend source s tracks.within
    rw [← tracks.left, tracks.room, converted] at agrees
    obtain ⟨after, isAfter, moved⟩ := agrees
    have next := tracks.moves moved (conversion.one.writes converted)
    have finished : after.inbytesleft = 0 := next.inbytesleft
    refine ⟨_, Ends.of_returned (by
      rw [conversionStep, isAfter]
      dsimp only
      rw [if_neg (by simp [finished]), if_pos finished]), ?_⟩
    rw [conversionLoop_ok converted, if_pos rfl]
    refine ⟨rfl, ?_, next.held⟩
    exact next.len
  | case2 inbuf buf written rest converted more ih =>
    have agrees := conversion.refines bigend source s tracks.within
    rw [← tracks.left, tracks.room, converted] at agrees
    obtain ⟨after, isAfter, moved⟩ := agrees
    have next := tracks.moves moved (conversion.one.writes converted)
    have unfinished : after.inbytesleft ≠ 0 := by
      rw [next.inbytesleft]
      exact fun empty => more (List.eq_nil_of_length_eq_zero empty)
    obtain ⟨returned, ends, answers⟩ := ih next
    refine ⟨returned, Ends.of_next (by
      rw [conversionStep, isAfter]
      dsimp only
      rw [if_pos ⟨unfinished, rfl⟩]) ends, ?_⟩
    rw [conversionLoop_ok converted, if_neg more]
    revert answers
    cases conversionLoop conversion.one bigend rest
        (buf.append written (conversion.one.writes converted)) with
    | ok after => exact id
    | error errno =>
      rintro ⟨isErrno, isLen, held⟩
      exact ⟨isErrno, isLen, (List.prefix_append _ _).trans held⟩
  | case3 buf errno failed =>
    have agrees := conversion.refines bigend source s tracks.within
    rw [← tracks.left, tracks.room, failed] at agrees
    have finished : s.inbytesleft = 0 := tracks.inbytesleft
    refine ⟨_, Ends.of_returned (by
      rw [conversionStep, agrees]
      dsimp only
      rw [if_neg (by simp [finished]), if_pos finished]), ?_⟩
    rw [conversionLoop_error failed, if_pos rfl]
    refine ⟨rfl, ?_, tracks.held⟩
    exact tracks.len
  | case4 inbuf buf nonempty failed ih =>
    have agrees := conversion.refines bigend source s tracks.within
    rw [← tracks.left, tracks.room, failed] at agrees
    have unfinished : s.inbytesleft ≠ 0 := by
      rw [tracks.inbytesleft]
      exact fun empty => nonempty (List.eq_nil_of_length_eq_zero empty)
    obtain ⟨returned, ends, answers⟩ := ih
      (tracks.enlarge (List.length_ofFn (f := fresh s.text.length)))
    refine ⟨returned, Ends.of_next (by
      rw [conversionStep, agrees]
      dsimp only
      rw [if_neg (by simp), if_neg unfinished, if_neg (by simp)]) ends, ?_⟩
    rw [conversionLoop_error failed, if_neg nonempty, if_pos rfl]
    exact answers
  | case5 inbuf buf errno failed nonempty notE2big =>
    have agrees := conversion.refines bigend source s tracks.within
    rw [← tracks.left, tracks.room, failed] at agrees
    have unfinished : s.inbytesleft ≠ 0 := by
      rw [tracks.inbytesleft]
      exact fun empty => nonempty (List.eq_nil_of_length_eq_zero empty)
    refine ⟨_, Ends.of_returned (by
      rw [conversionStep, agrees]
      dsimp only
      rw [if_neg (by simp), if_neg unfinished, if_pos (by simpa using notE2big)]), ?_⟩
    rw [conversionLoop_error failed, if_neg nonempty, if_neg notE2big]
    exact ⟨rfl, rfl, tracks.held⟩

theorem utf32_append_inj {bigend : Bool} {c d : Nat} {cRest dRest : List UInt8}
    (cSmall : c ≤ 0x7FFFFFFF) (dSmall : d ≤ 0x7FFFFFFF)
    (same : utf32 bigend c ++ cRest = utf32 bigend d ++ dRest) : c = d ∧ cRest = dRest := by
  have lengths : (utf32 bigend c).length = (utf32 bigend d).length := by
    rw [length_utf32, length_utf32]
  obtain ⟨stored, sameRest⟩ := List.append_inj same lengths
  obtain ⟨b0, b1, b2, b3, bytes⟩ : ∃ b0 b1 b2 b3, utf32 bigend d = [b0, b1, b2, b3] := by
    have four := length_utf32 bigend d
    match utf32 bigend d, four with
    | [b0, b1, b2, b3], _ => exact ⟨b0, b1, b2, b3, rfl⟩
  refine ⟨?_, sameRest⟩
  rw [← loadWord_of_utf32 (by omega) (stored.trans bytes), loadWord_of_utf32 (by omega) bytes]

namespace StringConversion

def Convertible : StringConversion → Nat → Prop
  | utf8Utf16, c | utf16Utf8, c => Character c ∧ c ≤ 0x10FFFF
  | utf8Utf32, c | utf32Utf8, c => Character c

def source (bigend : Bool) : StringConversion → Nat → List UInt8
  | utf8Utf16 | utf8Utf32 => utf8
  | utf16Utf8 => utf16 bigend
  | utf32Utf8 => utf32 bigend

def target (bigend : Bool) : StringConversion → Nat → List UInt8
  | utf8Utf16 => utf16 bigend
  | utf8Utf32 => utf32 bigend
  | utf16Utf8 | utf32Utf8 => utf8

/-- The characters that the conversion of one character mistakes. -/
def Mistaken : StringConversion → Nat → Prop
  | utf8Utf16, c => c = 0xFFFF
  | utf8Utf32, c => Missed c
  | utf16Utf8, _ => False
  | utf32Utf8, c => c = 0x7FFFFFFF

def Taken : StringConversion → Nat → Prop
  | utf8Utf16, c | utf16Utf8, c => Character c ∧ c ≤ 0x10FFFF
  | utf8Utf32, c => Character c ∧ ¬Missed c
  | utf32Utf8, c => Character c ∧ c ≠ 0x7FFFFFFF

def written (bigend : Bool) : StringConversion → Nat → List UInt8
  | utf8Utf16 => written16 bigend
  | utf8Utf32 => utf32 bigend
  | utf16Utf8 | utf32Utf8 => utf8

theorem transcodes (conversion : StringConversion) (bigend : Bool) :
    Transcodes (conversion.one.convert bigend) conversion.Taken (conversion.source bigend)
      (conversion.written bigend) := by
  cases conversion with
  | utf8Utf16 => exact utf8ToUtf16_transcodes bigend
  | utf8Utf32 => exact utf8ToUtf32_transcodes bigend
  | utf16Utf8 => exact utf16ToUtf8_transcodes bigend
  | utf32Utf8 => exact utf32ToUtf8_transcodes bigend

variable {conversion : StringConversion} {bigend : Bool} {cs : List Nat}

theorem convertible_of_taken {c : Nat} (taken : conversion.Taken c) :
    conversion.Convertible c := by
  cases conversion with
  | utf8Utf16 => exact taken
  | utf8Utf32 => exact taken.1
  | utf16Utf8 => exact taken
  | utf32Utf8 => exact taken.1

theorem taken_of_not_mistaken {c : Nat} (convertible : conversion.Convertible c)
    (right : ¬conversion.Mistaken c) : conversion.Taken c := by
  cases conversion with
  | utf8Utf16 => exact convertible
  | utf8Utf32 => exact ⟨convertible, right⟩
  | utf16Utf8 => exact convertible
  | utf32Utf8 => exact ⟨convertible, right⟩

theorem written_eq_target {c : Nat} (right : ¬conversion.Mistaken c) :
    conversion.written bigend c = conversion.target bigend c := by
  cases conversion with
  | utf8Utf16 => exact if_neg right
  | utf8Utf32 => rfl
  | utf16Utf8 => rfl
  | utf32Utf8 => rfl

theorem taken_of_flatMap {ds : List Nat} (convertible : ∀ c ∈ cs, conversion.Convertible c)
    (taken : ∀ d ∈ ds, conversion.Taken d)
    (same : cs.flatMap (conversion.source bigend) = ds.flatMap (conversion.source bigend)) :
    ∀ c ∈ cs, conversion.Taken c := by
  cases conversion with
  | utf8Utf16 => exact convertible
  | utf16Utf8 => exact convertible
  | utf8Utf32 =>
    have equal := utf8_flatMap_inj (fun c member => (convertible c member).1)
      (fun d member => (taken d member).1.1) same
    exact equal ▸ taken
  | utf32Utf8 =>
    have equal := Lib.flatMap_code_inj (fun c => c ≤ 0x7FFFFFFF)
      (utf32ToUtf8_transcodes bigend).nonempty utf32_append_inj
      (fun c member => (convertible c member).1) (fun d member => (taken d member).1.1) same
    exact equal ▸ taken

theorem written_flatMap_iff (taken : ∀ c ∈ cs, conversion.Taken c) :
    cs.flatMap (conversion.written bigend) = cs.flatMap (conversion.target bigend) ↔
      ∀ c ∈ cs, ¬conversion.Mistaken c := by
  constructor
  · intro same c member
    cases conversion with
    | utf8Utf16 =>
      have absent := (written16_flatMap_iff bigend cs).2.mp same.symm
      exact fun last => absent (last ▸ member)
    | utf8Utf32 => exact (taken c member).2
    | utf16Utf8 => exact id
    | utf32Utf8 => exact (taken c member).2
  · intro right
    rw [List.flatMap_congr fun c member => written_eq_target (right c member)]

end StringConversion

/-- The loop returns `true`, and has appended the output. -/
def Converts (buffer : Buffer) (returned : Returned) (output : List UInt8) : Prop :=
  returned.errno = none ∧ returned.len ≤ returned.text.length ∧
    returned.text.take returned.len = buffer.text.take buffer.len ++ output

/-- The loop appends the conversions of the characters of a well-formed input, and
returns `false` for any other. -/
def Faithful (conversion : StringConversion) (bigend : Bool) (source : List UInt8)
    (buffer : Buffer) (returned : Returned) : Prop :=
  (∀ cs : List Nat, (∀ c ∈ cs, conversion.Convertible c) →
    source = cs.flatMap (conversion.source bigend) →
      Converts buffer returned (cs.flatMap (conversion.target bigend))) ∧
  ((∀ cs : List Nat, (∀ c ∈ cs, conversion.Convertible c) →
    source ≠ cs.flatMap (conversion.source bigend)) → returned.errno ≠ none)

theorem converts_inj {buffer : Buffer} {returned : Returned} {first second : List UInt8}
    (isFirst : Converts buffer returned first) (isSecond : Converts buffer returned second) :
    first = second :=
  List.append_cancel_left (isFirst.2.2.symm.trans isSecond.2.2)

theorem conversions_ne_e2big (one : OneConversion) (bigend : Bool) (inbuf : List UInt8) :
    conversions one bigend inbuf ≠ .error .e2big := by
  induction inbuf using conversions.induct one bigend with
  | case1 =>
    rw [conversions_nil]
    intro isE2big
    cases isE2big
  | case2 inbuf nonempty written rest converted ih =>
    rw [conversions_ok converted]
    revert ih
    cases conversions one bigend rest with
    | ok output =>
      intro _ isE2big
      cases isE2big
    | error errno => exact fun notE2big isE2big => notE2big isE2big
  | case3 inbuf nonempty errno failed =>
    rw [conversions_error nonempty failed]
    intro isE2big
    rw [Except.error.injEq] at isE2big
    rw [isE2big] at failed
    exact absurd (one.fits failed) (lt_irrefl _)

/-- The loop ends, leaves what the buffer held, and appends the conversions of the
successive characters or returns the error of one of them, however much room there
is at the start.  It is right on the inputs without a character that the conversion
of one character mistakes. -/
theorem conversionLoop_faithful_iff (conversion : StringConversion) (bigend : Bool)
    (source : List UInt8) (buffer : Buffer) (fresh : Nat → Fin outbufBlockSize → UInt8) :
    ∃ returned, Ends (conversion.converter bigend) source fresh buffer.len
        (startCursors source buffer) returned ∧
      returned.text.take buffer.len = buffer.text.take buffer.len ∧
      (match conversions conversion.one bigend source with
        | .ok output => Converts buffer returned output
        | .error errno => (errno = .eilseq ∨ errno = .einval) ∧
            returned.errno = some errno ∧ returned.len = buffer.len) ∧
      (Faithful conversion bigend source buffer returned ↔
        ∀ cs : List Nat, (∀ c ∈ cs, conversion.Convertible c) →
          source = cs.flatMap (conversion.source bigend) →
            ∀ c ∈ cs, ¬conversion.Mistaken c) := by
  obtain ⟨returned, ends, answers⟩ := conversionRun_refines conversion bigend source fresh
    buffer.len source _ (Tracks.start source buffer)
  have appends := conversionLoop_eq conversion bigend source
    ⟨buffer.text.take buffer.len, buffer.text.length,
      by rw [List.length_take]; exact Nat.min_le_right _ _⟩
  have taken := conversionLoop_iff (conversion.transcodes bigend) source
    ⟨buffer.text.take buffer.len, buffer.text.length,
      by rw [List.length_take]; exact Nat.min_le_right _ _⟩
  have length : (buffer.text.take buffer.len).length = buffer.len := by
    rw [List.length_take, Nat.min_eq_left buffer.fits]
  have keeps : ∀ {text : List UInt8}, buffer.text.take buffer.len <+: text →
      text.take buffer.len = buffer.text.take buffer.len := by
    rintro text ⟨rest, rfl⟩
    exact List.take_left' length
  refine ⟨returned, ends, ?_⟩
  revert answers appends taken
  generalize conversionLoop conversion.one bigend source _ = result
  intro answers appends taken
  cases result with
  | error errno =>
    obtain ⟨isErrno, isLen, held⟩ := answers
    have notE2big := conversions_ne_e2big conversion.one bigend source
    cases converted : conversions conversion.one bigend source with
    | ok output =>
      rw [converted] at appends
      cases appends
    | error errno' =>
      rw [converted] at appends notE2big
      cases appends
      refine ⟨keeps held, ⟨?_, isErrno, isLen⟩, ?_⟩
      · cases errno with
        | e2big => exact absurd rfl notE2big
        | eilseq => exact .inl rfl
        | einval => exact .inr rfl
      · constructor
        · intro faithful cs convertible isSource
          have converts := (faithful.1 cs convertible isSource).1
          rw [isErrno] at converts
          cases converts
        · intro right
          refine ⟨fun cs convertible isSource => ?_, fun _ => by rw [isErrno]; exact Option.some_ne_none _⟩
          obtain ⟨after, isAfter, -⟩ := (taken _).mpr ⟨cs, fun c member =>
            StringConversion.taken_of_not_mistaken (convertible c member)
              (right cs convertible isSource c member), isSource, rfl⟩
          cases isAfter
  | ok after =>
    obtain ⟨isNone, isLen, held⟩ := answers
    obtain ⟨cs, csTaken, isSource, isText⟩ := (taken after.text).mp ⟨after, rfl, rfl⟩
    have converts : Converts buffer returned (cs.flatMap (conversion.written bigend)) := by
      obtain ⟨rest, isReturned⟩ := held
      refine ⟨isNone, ?_, ?_⟩
      · rw [← isReturned, isLen, List.length_append]
        exact Nat.le_add_right _ _
      · rw [← isReturned, isLen, List.take_left, isText]
    refine ⟨keeps (.trans ⟨_, isText.symm⟩ held), ?_, ?_⟩
    · cases converted : conversions conversion.one bigend source with
      | ok output =>
        rw [converted] at appends
        have same : cs.flatMap (conversion.written bigend) = output := by
          simpa [Except.map, isText] using appends
        exact same ▸ converts
      | error errno =>
        rw [converted] at appends
        cases appends
    · constructor
      · intro faithful ds convertible isDs c member
        have dsTaken := StringConversion.taken_of_flatMap convertible csTaken
          (isDs.symm.trans isSource)
        obtain ⟨after', isAfter', isText'⟩ := (taken _).mpr ⟨ds, dsTaken, isDs, rfl⟩
        cases isAfter'
        have same := List.append_cancel_left (isText.symm.trans isText')
        have targets := converts_inj converts (faithful.1 ds convertible isDs)
        exact (StringConversion.written_flatMap_iff dsTaken).mp (same.symm.trans targets)
          c member
      · intro right
        refine ⟨fun ds convertible isDs => ?_, fun other => ?_⟩
        · have dsRight := right ds convertible isDs
          have dsTaken := fun c member =>
            StringConversion.taken_of_not_mistaken (convertible c member) (dsRight c member)
          obtain ⟨after', isAfter', isText'⟩ := (taken _).mpr ⟨ds, dsTaken, isDs, rfl⟩
          cases isAfter'
          have same := List.append_cancel_left (isText.symm.trans isText')
          rw [← (StringConversion.written_flatMap_iff dsTaken).mpr dsRight, ← same]
          exact converts
        · exact absurd isSource (other cs fun c member =>
            StringConversion.convertible_of_taken (csTaken c member))

/-- The last character of UTF-32 is refused. -/
theorem conversionLoop_not_faithful :
    ¬∀ (conversion : StringConversion) (bigend : Bool) (source : List UInt8) (buffer : Buffer)
      (fresh : Nat → Fin outbufBlockSize → UInt8),
      ∃ returned, Ends (conversion.converter bigend) source fresh buffer.len
        (startCursors source buffer) returned ∧
        Faithful conversion bigend source buffer returned := by
  intro always
  obtain ⟨returned, ⟨bound, runs⟩, faithful⟩ := always .utf32Utf8 true [0x7F, 0xFF, 0xFF, 0xFF]
    ⟨[], 0, Nat.le_refl 0⟩ (fun _ _ => 0)
  have refused : conversionRun (Converter.utf32ToUtf8 true) [0x7F, 0xFF, 0xFF, 0xFF]
      (fun _ _ => 0) 0 (bound + 1) ⟨0, 4, 0, 0, []⟩ = some ⟨some .eilseq, [], 0⟩ := by
    rw [conversionRun, conversionStep, show Converter.utf32ToUtf8 true [0x7F, 0xFF, 0xFF, 0xFF]
      ⟨0, 4, 0, 0, []⟩ = (some .eilseq, ⟨0, 4, 0, 0, []⟩) by decide]
    rfl
  have isReturned := (runs (bound + 1) (Nat.le_succ bound)).symm.trans refused
  rw [Option.some.injEq] at isReturned
  have converts := (faithful.1 [0x7FFFFFFF]
    (by simp only [List.mem_singleton, forall_eq]; exact show Character _ by decide)
    (by decide)).1
  rw [isReturned] at converts
  cases converts

end GccCil.Libcpp.Charset
