import AliluOS.Allocator.Safety
import AliluOS.Interrupts.Chips
import AliluOS.Interrupts.Vectors
import AliluOS.Keyboard.Computer
import AliluOS.Network.Pci
import AliluOS.Shell.Echo
import AliluOS.Vga.Printing

/-! From power-on to the prompt: `Kernel::initialize` brings up the drivers, and from then on
the screen is what the kernel prints below its banner. -/

namespace AliluOS
open Text Lib Thread Kernel Ports Interrupts Allocator Network Shell

def Keyboard.reset (k : Keyboard) : Keyboard :=
  { k with
    shift := false, ctrl := false, alt := false, capsLock := false, capsLockPressed := false,
    numLock := false, scrollLock := false }

namespace Kernel

def bootBanner : List Print :=
  [.setColor .lightGreen .black,
    .println "========================================",
    .println "          Welcome to AliluOS",
    .println "========================================",
    .setColor .white .black,
    .println "",
    .println "Kernel Initialized Successfully.",
    .println "",
    .write "> "]

structure Drivers where
  display : Display
  keyboard : Keyboard
  gdt : Gdt
  idt : Fin 256 → IdtEntry
  pics : Pics
  pit : Pit
  heap : Heap
  nic : EthernetDriver

def heapSize : Nat := 5 * 1024 * 1024

structure Board where
  handler : Routine → UInt64
  tss : UInt64
  heapSpace : Nat
  pciPort : UInt32 → UInt32
  heap_pos : 0 < heapSpace
  heap_fits : heapSpace + heapSize ≤ 2 ^ 64

/-- Before `initialize`: what is in video memory, in the heap's memory and in the devices
may be anything. -/
def Drivers.new (cells : Nat → Cell) (crt : Crt) (pics : Pics) (pit : Pit) (word : Nat → Nat) :
    Drivers where
  display := .new cells crt
  keyboard := .new
  gdt := .initial
  idt _ := .missing
  pics := pics
  pit := pit
  heap := .new word
  nic := .new

def initializeKernel (board : Board) (fuel : Nat) (d : Drivers) : Option Drivers := do
  let heap ← Allocator.init fuel d.heap board.heapSpace heapSize
  return {
    display := d.display.init.perform (bootBanner.map fun p => .vga p.call)
    keyboard := d.keyboard.reset
    gdt := setupGdt d.gdt board.tss
    idt := setupIdt board.handler d.idt
    pics := feed Pics.out d.pics initOuts
    pit := feed Pit.out d.pit initOuts
    heap := heap
    nic := d.nic.init board.pciPort }

theorem initializeKernel_returns (board : Board) (cells : Nat → Cell) (crt : Crt) (pics : Pics)
    (pit : Pit) (word : Nat → Nat) :
    ∃ d, initializeKernel board 2 (.new cells crt pics pit word) = some d ∧
      d.keyboard = .new ∧
      d.display = (Display.new cells crt).init.perform (bootBanner.map fun p => .vga p.call) := by
  have haligned : board.heapSpace ≤ 2 ^ 64 - 8 := by
    have hfits := board.heap_fits
    unfold heapSize at hfits
    omega
  obtain ⟨heap, hheap⟩ := init_returns board.heap_pos haligned board.heap_fits word
  unfold initializeKernel Drivers.new
  dsimp only
  rw [hheap, Option.bind_eq_bind, Option.bind_some]
  exact ⟨_, rfl, rfl, by dsimp only⟩

end Kernel

namespace Shell

/-- What a key press finds of the ones before: not their time, nor their polls. -/
def settled (m : Held Lock World) : Held Lock World :=
  { m with state := { m.state with ticks := 0, polls := [] } }

variable {m m' : Held Lock World}

theorem press_settled (h : settled m = settled m') (p : Press) :
    (Machine.running m).press p = (Machine.running m').press p := by
  have hdeliver : p.deliver (settled m) = p.deliver (settled m') := congrArg p.deliver h
  exact congrArg (fun n => Machine.ofResult (handleKeyPress p.ctrl p.key n)) hdeliver

theorem handleKeyPress_ignored {key : Key} (h : key.acts = false) (ctrl : Bool) :
    handleKeyPress ctrl key = return := by
  cases key <;> first | rfl | cases h

theorem event_settled (h : settled m = settled m') {ctrl : Bool} {e : KeyEvent} {ticks : Nat}
    {polls : List Poll} (hreturned : ((Machine.running m).event ctrl e ticks polls).Returned) :
    ∃ n n', (Machine.running m).event ctrl e ticks polls = .running n ∧
      (Machine.running m').presses
        ((e.tap ctrl).map fun t => Press.mk t.1 t.2 ticks polls).toList = .running n' ∧
      settled n = settled n' := by
  cases e with
  | release key => exact ⟨_, m', rfl, rfl, h⟩
  | press key =>
    cases hacts : key.acts with
    | false =>
      refine ⟨{ m with state := { m.state with ticks := ticks, polls := polls } }, m', ?_,
        by rw [KeyEvent.tap, hacts]; rfl, h⟩
      rw [Machine.event, handleKeyEvent, handleKeyPress_ignored hacts]
      rfl
    | true =>
      have htap : (Machine.running m').presses (((KeyEvent.press key).tap ctrl).map
          fun t => Press.mk t.1 t.2 ticks polls).toList =
            (Machine.running m').press ⟨key, ctrl, ticks, polls⟩ := by
        rw [KeyEvent.tap, hacts]
        rfl
      have hevent : (Machine.running m).event ctrl (.press key) ticks polls =
          (Machine.running m).press ⟨key, ctrl, ticks, polls⟩ := rfl
      rw [htap, ← press_settled h, ← hevent]
      cases hnext : (Machine.running m).event ctrl (.press key) ticks polls with
      | running n => exact ⟨n, n, rfl, rfl, rfl⟩
      | stopped why =>
        rw [hnext] at hreturned
        exact hreturned.elim

theorem presses_text (hm : m.locks = []) (hmode : m.state.shell.mode = .command) {text : Str}
    {ps : List Press}
    (hps : ps.map (fun p => (p.key, p.ctrl)) = text.map fun c => (.typing c, false))
    (htext : '\n' ∉ text) :
    ∃ m', (Machine.running m).presses ps = .running m' ∧
      m'.state.console = m.state.console ++ text.map VgaCall.putChar := by
  induction ps generalizing m text with
  | nil =>
    obtain rfl : text = [] := by simpa using hps.symm
    exact ⟨m, rfl, (List.append_nil _).symm⟩
  | cons p ps ih =>
    obtain _ | ⟨c, text⟩ := text
    · simp at hps
    · simp only [List.map_cons, List.cons.injEq, Prod.mk.injEq] at hps
      obtain ⟨⟨hkey, hctrl⟩, hps⟩ := hps
      rw [List.mem_cons, not_or] at htext
      obtain ⟨hbreak, htext⟩ := htext
      have hhandler : handleKeyPress p.ctrl p.key = handleChar c := by
        rw [hkey, hctrl]
        rcases eq_or_ne c ' ' with rfl | hspace
        · rfl
        · rw [Key.typing, if_neg hspace, if_neg (Ne.symm hbreak)]
          rfl
      have hcommand : (p.deliver m).state.shell.mode = .command := hmode
      have hechoes := echoes_handleChar (m := p.deliver m) (k := .char c (Ne.symm hbreak)) hm
        (by rw [hcommand]; decide) rfl
      obtain ⟨_, m₁, hrun, hlocks, hmode₁, -, hconsole⟩ := exists_of_wp hechoes id
      obtain ⟨m', hpresses, hconsole'⟩ := ih hlocks (hmode₁.trans hcommand) hps htext
      refine ⟨m', ?_, ?_⟩
      · have hpress : (Machine.running m).press p = .running m₁ := by
          rw [Machine.press, hhandler, hrun]
          rfl
        rw [Machine.presses, List.foldl_cons, hpress]
        exact hpresses
      · rw [hconsole', hconsole, List.append_assoc]
        rfl

end Shell

namespace System

variable {keys : Set PhysicalKey} {s : System} {tr : List (System × Act)}

theorem run_sequential (hrun : Run (Step keys) start tr s) :
    ∃ m m', s.machine = .running m ∧ boot.presses (presses tr) = .running m' ∧
      settled m = settled m' := by
  induction hrun with
  | nil => exact ⟨_, _, rfl, rfl, rfl⟩
  | @cons tr s s' a _ hstep ih =>
    obtain ⟨m, m', hm, hpresses, hsettled⟩ := ih
    have hact := hstep.2
    cases a with
    | produce e =>
      obtain ⟨-, rfl⟩ := act_produce hact
      exact ⟨m, m', hm, by simpa [handled] using hpresses, hsettled⟩
    | round ticks polls =>
      simp only [act] at hact
      split at hact
      · cases hact
      · next scancode codes hpending =>
        split_ifs at hact with hreturned
        obtain rfl := Option.some.inj hact
        rw [hm] at hreturned
        obtain ⟨n, n', hn, hn', hsame⟩ := event_settled hsettled hreturned.2
        refine ⟨n, n', by rw [hm]; exact hn, ?_, hsame⟩
        rw [Machine.presses] at hpresses
        rw [presses_cons, Machine.presses, List.foldl_append, hpresses]
        simp only [handled, hpending]
        exact hn'

theorem display_perform (cells : Nat → Cell) (crt : Crt) (prints : List Print) :
    let d := ((Display.new cells crt).init.perform (bootBanner.map fun p => .vga p.call)).perform
      (prints.map fun p => .vga p.call)
    d.Good ∧ d.cursorVisible = true ∧
      d.vga = (VGA.new cells).clear.perform ((bootBanner ++ prints).map Print.call) := by
  intro d
  obtain ⟨hinit, -⟩ := Display.good_init (d := .new cells crt) fun h =>
    absurd h (by simp [Display.new])
  have hvisible : (Display.new cells crt).init.cursorVisible = true := by
    rw [Display.init, Display.clear, Display.updateCursor_cursorVisible,
      Display.updateCursor_cursorVisible]
    rfl
  have hvga : (Display.new cells crt).init.vga = (VGA.new cells).clear := by
    rw [Display.init, Display.clear, Display.updateCursor_vga, Display.updateCursor_vga]
    rfl
  have hd : d = (Display.new cells crt).init.perform
      (((bootBanner ++ prints).map Print.call).map .vga) := by
    rw [List.map_map, List.map_append, Display.perform, List.foldl_append]
    rfl
  rw [hd, Display.perform_cursorVisible, hvisible, Display.perform_vga, hvga]
  exact ⟨(Display.good_perform hinit _).1, rfl, rfl⟩

theorem typed_text_seen (hone : OnePerModifier keys) (hrun : Run (Step keys) start tr s)
    (hsafe : Guarded Undiverted tr) {text : Str} (htext : ∀ c ∈ text, OnLayout c)
    (hline : '\n' ∉ text) (hevents : events tr = text.flatMap strokes) (hpending : s.pending = [])
    (board : Board) (cells : Nat → Cell) (crt : Crt) (pics : Pics) (pit : Pit)
    (word : Nat → Nat) :
    ∃ d m, initializeKernel board 2 (.new cells crt pics pit word) = some d ∧
      d.keyboard = start.keyboard ∧ s.machine = .running m ∧
      let display := d.display.perform (m.state.console.map .vga)
      let layout := Ink.layout (inks 0x0F (bootBanner ++ text.map .putChar))
      let rows := layout.toList
      let visible := rows.drop (rows.length - 25)
      (∀ row < 25, ∀ col < 80, Ink.Seen (display.vga.cells (row * 80 + col))
        (visible[row]?.getD [])[col]?) ∧
      display.crt.cursor = min (rows.length - 1) 24 * 80 + layout.last.length ∧
      display.crt.cursorOff = false := by
  have htaps := (run_follows hone hrun hsafe).taps
  rw [waiting, hpending, Keyboard.taps, List.append_nil, hevents, strokes_text htext] at htaps
  obtain ⟨m, m', hm, hpresses, hsettled⟩ := run_sequential hrun
  obtain ⟨m'', hpresses', hconsole⟩ := presses_text (m := ⟨[], ⟨.new, .new, [], [], 0⟩⟩) rfl rfl
    htaps hline
  obtain rfl : m' = m'' := Machine.running.inj (hpresses.symm.trans hpresses')
  have hprints : m.state.console = (text.map Print.putChar).map Print.call := by
    have hsame := congrArg (fun n : Held Lock World => n.state.console) hsettled
    rw [List.map_map]
    exact hsame.trans hconsole
  obtain ⟨d, hboot, hkeyboard, hdisplay⟩ := initializeKernel_returns board cells crt pics pit word
  refine ⟨d, m, hboot, hkeyboard, hm, ?_⟩
  obtain ⟨hgood, hvisible, hvga⟩ := display_perform cells crt (text.map .putChar)
  rw [← hdisplay] at hgood hvisible hvga
  intro display layout rows visible
  have hlist : m.state.console.map DisplayCall.vga =
      (text.map Print.putChar).map fun p => .vga p.call := by
    rw [hprints, List.map_map]
    rfl
  obtain ⟨p, hwindow, hholds⟩ := (VGA.new cells).holds_prints (bootBanner ++ text.map .putChar)
  rw [← hvga, ← hlist] at hwindow
  rw [← hlist] at hgood hvisible
  obtain ⟨hcells, hrow, hcolumn⟩ := hholds.seen hwindow
  obtain ⟨hcursor, hshown⟩ := hgood.synced.visible hvisible
  refine ⟨hcells, ?_, hshown⟩
  rw [hcursor, VGA.position, hrow, hcolumn]
  rfl

end System

namespace Computer

variable {keys : Set PhysicalKey} {s : Computer} {tr : List (Computer × Turn)}

/-- Whatever video memory, the controllers and the heap's memory hold at power-on: a text
typed at the keyboard, however keyboard, port, interrupt handler and main loop take turns,
stands on the screen behind banner and prompt once no scancode is on its way, in rows of
80 of which the last 25 are shown, and the cursor is drawn behind it. -/
theorem text_reaches_screen (hone : OnePerModifier keys) (hrun : Run (Step keys) start tr s)
    (horder : Guarded Orderly tr) {text : Str} (htext : ∀ c ∈ text, OnLayout c)
    (hline : '\n' ∉ text) (hevents : events tr = text.flatMap strokes) (hpending : s.pending = [])
    (board : Board) (cells : Nat → Cell) (crt : Crt) (pics : Pics) (pit : Pit)
    (word : Nat → Nat) :
    ∃ d m, initializeKernel board 2 (.new cells crt pics pit word) = some d ∧
      d.keyboard = start.keyboard ∧ s.machine = .running m ∧
      let display := d.display.perform (m.state.console.map .vga)
      let layout := Ink.layout (inks 0x0F (bootBanner ++ text.map .putChar))
      let rows := layout.toList
      let visible := rows.drop (rows.length - 25)
      (∀ row < 25, ∀ col < 80, Ink.Seen (display.vga.cells (row * 80 + col))
        (visible[row]?.getD [])[col]?) ∧
      display.crt.cursor = min (rows.length - 1) 24 * 80 + layout.last.length ∧
      display.crt.cursorOff = false := by
  obtain ⟨tr', hrun', hsafe, hevents', -⟩ := run_system hrun horder
  exact System.typed_text_seen hone hrun' hsafe htext hline (hevents'.trans hevents) hpending
    board cells crt pics pit word

theorem text_reaches_screen_words : ∃ (d : Drivers) (m : Held Lock World),
    let shown := (d.display.perform (m.state.console.map .vga)).vga.cells
    shown (6 * 80 + 2) = ⟨108, 0x0F⟩ ∧ shown (6 * 80 + 5) = ⟨77, 0x0F⟩ := by
  obtain ⟨tr, s, hrun, horder, hevents, hpending⟩ :=
    run_text "ls My dir".toList (by decide) (by decide +kernel)
  let board : Board := ⟨fun _ => 0, 0, 0x100000, fun _ => 0, by decide, by decide⟩
  let pic : Pic := ⟨8, 0, fun _ => false, fun _ => false, fun _ => false, .mask⟩
  obtain ⟨d, m, -, -, -, hcells, -⟩ :=
    text_reaches_screen System.onePerModifier_leftKeys hrun horder (by decide) (by decide)
      hevents hpending board (fun _ => ⟨0, 0⟩) ⟨0, fun _ => 0⟩ ⟨pic, pic⟩ ⟨0, 0, none⟩ fun _ => 0
  generalize hlayout : Ink.layout (inks 0x0F (bootBanner ++ "ls My dir".toList.map .putChar)) =
    layout at hcells
  have hink : ∀ n : Nat × Char, n ∈ [(2, 'l'), (5, 'M')] →
      ((layout.toList.drop (layout.toList.length - 25))[6]?.getD [])[n.1]? =
        some (n.2, 0x0F) := by
    rw [← hlayout]
    decide +kernel
  have hfirst := hcells 6 (by decide) 2 (by decide)
  have hsecond := hcells 6 (by decide) 5 (by decide)
  rw [hink (2, 'l') (by decide)] at hfirst
  rw [hink (5, 'M') (by decide)] at hsecond
  exact ⟨d, m, hfirst, hsecond⟩

end Computer

end AliluOS
