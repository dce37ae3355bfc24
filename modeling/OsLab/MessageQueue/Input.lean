import OsLab.MessageQueue.Clients

/-!
# What the programs say

The strings a writer passes to `write` are the lines of its input, in pieces that fit into the
buffer and up to their first NUL, and when the input has ended the last one again and again
(`Program.text`). `Follows` relates a process to its program; it is kept by every result a call
can have (`Follows.resume`), so it holds whatever the device does.

A line that is ended by a newline is never the string `"quit"` (`text_ne_quit`).
-/

set_option autoImplicit false

namespace OsLab.MessageQueue

/-! ## Lines -/

theorem getLine_prefix_self (n : Nat) (stdin : List UInt8) : getLine n stdin <+: stdin := by
  induction n generalizing stdin with
  | zero => exact List.nil_prefix
  | succ n ih =>
      cases stdin with
      | nil => exact List.nil_prefix
      | cons b rest =>
          unfold getLine
          split
          · exact ⟨rest, rfl⟩
          · exact List.cons_prefix_cons.mpr ⟨rfl, ih rest⟩

theorem getLine_append_drop (n : Nat) (stdin : List UInt8) :
    getLine n stdin ++ stdin.drop (getLine n stdin).length = stdin :=
  List.prefix_iff_eq_append.mp (getLine_prefix_self n stdin)

theorem getLine_ne_nil {n : Nat} (room : 0 < n) {stdin : List UInt8} (more : stdin ≠ []) :
    getLine n stdin ≠ [] := by
  cases n with
  | zero => cases room
  | succ n =>
      cases stdin with
      | nil => exact absurd rfl more
      | cons b rest =>
          unfold getLine
          split <;> exact List.cons_ne_nil _ _

/-- How a line ends: with a newline, where the room ends, or where the input ends. -/
theorem getLine_cases (n : Nat) (stdin : List UInt8) :
    (∃ line, getLine n stdin = line ++ [newline]) ∨ (getLine n stdin).length = n ∨
      getLine n stdin = stdin := by
  induction n generalizing stdin with
  | zero => exact .inr (.inl rfl)
  | succ n ih =>
      cases stdin with
      | nil => exact .inr (.inr rfl)
      | cons b rest =>
          unfold getLine
          by_cases ended : b = newline
          · rw [if_pos ended]
            exact .inl ⟨[], by rw [ended]; rfl⟩
          · rw [if_neg ended]
            rcases ih rest with ⟨line, shape⟩ | full | whole
            · exact .inl ⟨b :: line, by rw [shape]; rfl⟩
            · exact .inr (.inl (by rw [List.length_cons, full]))
            · exact .inr (.inr (by rw [whole]))

/-- The pieces of an input that `fgets` stores, with room for `n` bytes. -/
def lines (n : Nat) (stdin : List UInt8) : List (List UInt8) :=
  if _ : 0 < n ∧ stdin ≠ [] then
    getLine n stdin :: lines n (stdin.drop (getLine n stdin).length)
  else []
termination_by stdin.length
decreasing_by
  rename_i more
  have some := List.length_pos_iff.mpr (getLine_ne_nil more.1 more.2)
  have some' := List.length_pos_iff.mpr more.2
  rw [List.length_drop]
  omega

theorem lines_of_ne_nil {n : Nat} (room : 0 < n) {stdin : List UInt8} (more : stdin ≠ []) :
    lines n stdin = getLine n stdin :: lines n (stdin.drop (getLine n stdin).length) := by
  rw [lines, dif_pos ⟨room, more⟩]

/-- **The lines are the input.** -/
theorem lines_flatten {n : Nat} (room : 0 < n) (stdin : List UInt8) :
    (lines n stdin).flatten = stdin := by
  fun_induction lines n stdin with
  | case1 stdin more ih => rw [List.flatten_cons, ih, getLine_append_drop]
  | case2 stdin ended =>
      rw [not_and, not_not] at ended
      rw [ended room, List.flatten_nil]

/-- A line ends with a newline or fills the room, but for a last line without newline. -/
theorem mem_lines_cases {n : Nat} {stdin line : List UInt8} (member : line ∈ lines n stdin) :
    (∃ front, line = front ++ [newline]) ∨ line.length = n ∨ line <:+ stdin := by
  fun_induction lines n stdin with
  | case1 stdin more ih =>
      rcases List.mem_cons.mp member with rfl | later
      · rcases getLine_cases n stdin with ended | full | whole
        · exact .inl ended
        · exact .inr (.inl full)
        · exact .inr (.inr ⟨[], whole⟩)
      · rcases ih later with ended | full | last
        · exact .inl ended
        · exact .inr (.inl full)
        · exact .inr (.inr (last.trans (List.drop_suffix _ _)))
  | case2 stdin ended => cases member

/-! ## Texts -/

/-- The strings of the lines of an input. -/
def strings (stdin : List UInt8) : List (List UInt8) :=
  (lines (bufferSize - 1) stdin).map cString

/-- The `k`-th string a program passes to `write`: the `k`-th line, or the last one when the input
has no more. -/
def Program.text : Program → Nat → List UInt8
  | .write stdin buffer, k =>
      (strings stdin)[k]?.getD ((strings stdin).getLast?.getD buffer.bytes)
  | .read, _ => []

/-- What has become of a program. -/
def Follows : Program → Proc → Prop
  | .write stdin buffer, .writeOpen rest line => rest = stdin ∧ line = buffer
  | .write stdin buffer, .writeLoop rest line written =>
      written.map Prod.fst ++ [line.bytes] =
          (List.range (written.length + 1)).map (Program.write stdin buffer).text ∧
        strings rest = (strings stdin).drop (written.length + 1)
  | .write _ _, .writeFailed => True
  | .read, .readOpen => True
  | .read, .readLoop printed => ∀ text ∈ printed, text.1 ≠ quit
  | .read, .readClose printed =>
      ∃ before ret, printed = before ++ [(quit, ret)] ∧ 0 ≤ ret ∧ ∀ text ∈ before, text.1 ≠ quit
  | .read, .readEnd printed =>
      printed = [] ∨
        ∃ before ret, printed = before ++ [(quit, ret)] ∧ 0 ≤ ret ∧
          ∀ text ∈ before, text.1 ≠ quit
  | _, _ => False

theorem Follows.start (program : Program) : Follows program program.start := by
  cases program with
  | write stdin buffer => exact ⟨rfl, rfl⟩
  | read => trivial

/-- With input left, `fgets` stores the string of the next line. -/
theorem strings_fgets {stdin : List UInt8} (more : stdin ≠ []) (buffer : Buffer bufferSize) :
    strings stdin = (fgets (by decide) stdin buffer).1.bytes ::
      strings (fgets (by decide) stdin buffer).2 := by
  have room : 0 < bufferSize - 1 := by decide
  rw [strings, lines_of_ne_nil room more, List.map_cons]
  simp only [fgets, more, if_false, Buffer.ofLine, strings]

/-- **The next string.** After the strings up to number `n` the buffer holds number `n + 1`. -/
theorem fgets_text {stdin rest : List UInt8} {buffer line : Buffer bufferSize} {n : Nat}
    (left : strings rest = (strings stdin).drop n)
    (current : n = 0 ∧ line = buffer ∨
      ∃ k, n = k + 1 ∧ line.bytes = (Program.write stdin buffer).text k) :
    (fgets (by decide) rest line).1.bytes = (Program.write stdin buffer).text n ∧
      strings (fgets (by decide) rest line).2 = (strings stdin).drop (n + 1) := by
  by_cases more : rest = []
  · subst more
    have ended : (strings stdin).length ≤ n := by
      rw [← List.drop_eq_nil_iff, ← left]
      simp [strings, lines]
    have beyond : (strings stdin)[n]? = none := List.getElem?_eq_none ended
    refine ⟨?_, ?_⟩
    · simp only [fgets, if_true, Program.text, beyond, Option.getD_none]
      rcases current with ⟨rfl, rfl⟩ | ⟨k, rfl, same⟩
      · rw [List.length_eq_zero_iff.mp (Nat.le_zero.mp ended)]
        rfl
      · rw [same, Program.text]
        rcases Nat.lt_or_ge k (strings stdin).length with last | past
        · have final : k = (strings stdin).length - 1 := by omega
          rw [List.getLast?_eq_getElem?, final]
          cases shape : (strings stdin)[(strings stdin).length - 1]? with
          | none => simp
          | some text => simp
        · rw [List.getElem?_eq_none past, Option.getD_none]
    · rw [List.drop_eq_nil_of_le (Nat.le_succ_of_le ended)]
      simp [fgets, strings, lines]
  · have next := strings_fgets more line
    rw [left] at next
    have inside : n < (strings stdin).length := by
      rcases Nat.lt_or_ge n (strings stdin).length with inside | past
      · exact inside
      · rw [List.drop_eq_nil_of_le past] at next
        cases next
    rw [List.drop_eq_getElem_cons inside, List.cons.injEq] at next
    obtain ⟨here, later⟩ := next
    refine ⟨?_, later.symm⟩
    rw [← here, Program.text, List.getElem?_eq_getElem inside, Option.getD_some]

theorem Follows.resume {program : Program} {p : Proc} (follows : Follows program p) (ret : Int)
    (delivered : List UInt8) : Follows program (p.resume ret delivered) := by
  unfold Proc.resume
  by_cases restarted : ret = -erestartsys
  · rw [if_pos restarted]
    exact follows
  · rw [if_neg restarted]
    cases program with
    | write stdin buffer =>
        cases p with
        | writeOpen rest line =>
            obtain ⟨rfl, rfl⟩ := follows
            by_cases failed : ret < 0
            · simp only [failed, if_true]
              trivial
            · simp only [failed, if_false]
              obtain ⟨first, left⟩ := fgets_text (n := 0) rfl (.inl ⟨rfl, rfl⟩)
              exact ⟨by rw [first]; rfl, left⟩
        | writeLoop rest line written =>
            obtain ⟨said, left⟩ := follows
            have current : line.bytes = (Program.write stdin buffer).text written.length := by
              rw [List.range_succ, List.map_append] at said
              exact (List.cons.inj (List.append_inj_right' said rfl)).1
            have after := fgets_text left (.inr ⟨_, rfl, current⟩)
            show Follows _ (.writeLoop (fgets (by decide) rest line).2
              (fgets (by decide) rest line).1 (written ++ [(line.bytes, ret)]))
            generalize fgets (by decide) rest line = result at after ⊢
            obtain ⟨line', rest'⟩ := result
            obtain ⟨next, left'⟩ := after
            refine ⟨?_, ?_⟩
            · rw [List.map_append, List.map_cons, List.map_nil, said, next, List.length_append,
                List.length_singleton, List.range_succ (n := written.length + 1), List.map_append]
              rfl
            · rw [List.length_append, List.length_singleton]
              exact left'
        | writeFailed => trivial
        | _ => exact follows.elim
    | read =>
        cases p with
        | readOpen =>
            by_cases failed : ret < 0
            · simp only [failed, if_true]
              exact .inl rfl
            · simp only [failed, if_false]
              exact fun _ member => by cases member
        | readLoop printed =>
            generalize shape : (if ret < 0 then [] else cString delivered) = num
            by_cases ends : num = quit
            · simp only [ends, if_true]
              refine ⟨printed, ret, rfl, ?_, follows⟩
              by_contra failed
              rw [if_pos (Int.not_le.mp failed)] at shape
              cases shape.trans ends
            · simp only [ends, if_false]
              intro text member
              rcases List.mem_append.mp member with old | new
              · exact follows text old
              · rw [List.mem_singleton.mp new]
                exact ends
        | readClose printed => exact .inr follows
        | readEnd printed => exact follows
        | _ => exact follows.elim

/-! ## Properties of the texts -/

theorem text_mem (stdin : List UInt8) (buffer : Buffer bufferSize) (k : Nat) :
    (Program.write stdin buffer).text k ∈ strings stdin ∨
      strings stdin = [] ∧ (Program.write stdin buffer).text k = buffer.bytes := by
  simp only [Program.text]
  cases found : (strings stdin)[k]? with
  | some text => exact .inl (List.mem_of_getElem? found)
  | none =>
      cases last : (strings stdin).getLast? with
      | some text => exact .inl (List.mem_of_getLast? last)
      | none => exact .inr ⟨List.getLast?_eq_none_iff.mp last, rfl⟩

theorem line_length_le {n : Nat} {stdin line : List UInt8} (member : line ∈ lines n stdin) :
    line.length ≤ n := by
  fun_induction lines n stdin with
  | case1 stdin more ih =>
      rcases List.mem_cons.mp member with rfl | later
      · exact getLine_length_le n stdin
      · exact ih later
  | case2 stdin ended => cases member

theorem mem_strings {stdin text : List UInt8} (member : text ∈ strings stdin) :
    0 ∉ text ∧ text.length < bufferSize := by
  obtain ⟨line, inside, rfl⟩ := List.mem_map.mp member
  refine ⟨zero_notMem_cString line, ?_⟩
  have short := line_length_le inside
  have shorter := (List.takeWhile_sublist (p := (· ≠ 0)) (l := line)).length_le
  have room : bufferSize - 1 < bufferSize := by decide
  unfold cString
  omega

/-- A text fits into the buffers of the programs and has no NUL. -/
theorem text_string (program : Program) (k : Nat) :
    0 ∉ program.text k ∧ (program.text k).length < bufferSize := by
  cases program with
  | write stdin buffer =>
      rcases text_mem stdin buffer k with member | ⟨-, same⟩
      · exact mem_strings member
      · rw [same]
        exact ⟨buffer.noNul, buffer.fits⟩
  | read => exact ⟨List.not_mem_nil, Nat.zero_lt_succ _⟩

/-- Text typed at a terminal: some lines, each ended by a newline, without NUL. -/
structure Typed (stdin : List UInt8) : Prop where
  noNul : 0 ∉ stdin
  ended : ∃ front, stdin = front ++ [newline]

theorem cString_eq_self {bytes : List UInt8} (noNul : 0 ∉ bytes) : cString bytes = bytes := by
  rw [cString, List.takeWhile_eq_self_iff]
  intro b member
  simp only [decide_eq_true_eq]
  rintro rfl
  exact noNul member

/-- **A line that was ended is never `"quit"`.** -/
theorem text_ne_quit {stdin : List UInt8} (typed : Typed stdin) (buffer : Buffer bufferSize)
    (k : Nat) : (Program.write stdin buffer).text k ≠ quit := by
  obtain ⟨front, ended⟩ := typed.ended
  have room : 0 < bufferSize - 1 := by decide
  rcases text_mem stdin buffer k with member | ⟨none, -⟩
  · obtain ⟨line, inside, same⟩ := List.mem_map.mp member
    have part : line <:+: stdin := by
      rw [← lines_flatten room stdin]
      exact List.infix_of_mem_flatten inside
    rw [cString_eq_self fun zero => typed.noNul (part.subset zero)] at same
    rw [← same]
    rintro rfl
    rcases mem_lines_cases inside with ⟨_, shape⟩ | full | ⟨before, last⟩
    · have final := congrArg List.getLast? shape
      rw [List.getLast?_concat] at final
      cases final
    · cases full
    · have final := congrArg List.getLast? (last.trans ended)
      simp [quit, newline] at final
  · have empty := lines_flatten room stdin
    rw [List.map_eq_nil_iff.mp none, List.flatten_nil, ended] at empty
    exact absurd empty.symm (List.append_ne_nil_of_right_ne_nil _ (List.cons_ne_nil _ _))

end OsLab.MessageQueue
