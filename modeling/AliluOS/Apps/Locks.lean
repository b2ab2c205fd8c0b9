import AliluOS.Apps.Games
import AliluOS.Kernel.Polling
import AliluOS.Network.Browser

/-! The applications and the locks: the canvas, chess and the browser never lock
twice, and Breakout does so on its first frame. -/

namespace AliluOS.Apps
open Text Fs Kernel Lib Thread

theorem quiet_startCanvas : Quiet startCanvas := by
  refine (quiet_say _).bind fun _ => quiet_readScancodeBlocking.bind fun _ => ?_
  refine (quiet_say _).bind fun _ => Quiet.bind ?_ fun _ => quiet_say _
  refine Quiet.pollingLoop (fun canvas => ?_) _
  exact (quiet_say _).bind fun _ => quiet_readScancodeBlocking.bind fun _ =>
    Quiet.ite (.pure _) (.pure _)

theorem Chess.quiet_enter (g : Chess) : Quiet g.enter := by
  refine Quiet.ite (.pure _) (Quiet.ite ?_ (.pure _))
  rcases moveSquares g.inputBuffer with _ | ⟨startCol, startRow, endCol, endRow⟩
  · exact quiet_kernelPanic _
  · exact .pure _

theorem Chess.quiet_key (g : Chess) (scancode : UInt8) : Quiet (g.key scancode) := by
  refine Quiet.ite (.pure _) (Quiet.ite g.quiet_enter (Quiet.ite (.pure _) ?_))
  rcases scancodeToChar scancode with _ | c
  · exact .pure _
  · exact Quiet.ite (.pure _) (.pure _)

theorem quiet_startChess : Quiet startChess := by
  refine (quiet_say _).bind fun _ => quiet_readScancodeBlocking.bind fun _ => ?_
  refine Quiet.bind (Quiet.pollingLoop (fun g => ?_) _) fun _ => quiet_say _
  exact (quiet_say _).bind fun _ => (quiet_say _).bind fun _ => (quiet_say _).bind fun _ =>
    quiet_readScancodeBlocking.bind fun scancode => g.quiet_key scancode

end AliluOS.Apps

namespace AliluOS.Network
open Text Fs Kernel Lib Thread

theorem Browser.quiet_search (b : Browser) : Quiet b.search := by
  unfold search
  rcases (performDuckduckgoSearch b.query).answer with _ | lines
  · exact quiet_kernelPanic _
  · exact .pure _

theorem Browser.quiet_key (b : Browser) (code : UInt8) : Quiet (b.key code) := by
  refine Quiet.ite (.pure _) (Quiet.ite ?_ (Quiet.ite (.pure _) (Quiet.ite ?_ (Quiet.ite ?_ ?_))))
  · have hsearch := quiet_search { b with scrollOffset := 0 }
    exact Quiet.ite (hsearch.bind fun _ => .pure _) (.pure _)
  · exact Quiet.ite (.pure _) (.pure _)
  · rcases b.results with _ | lines
    · exact .pure _
    · exact Quiet.ite (.pure _) (.pure _)
  · rcases scancodeToChar code with _ | c
    · exact .pure _
    · exact Quiet.ite (.pure _) (.pure _)

theorem quiet_startBrowser (initialQuery : Str) : Quiet (startBrowser initialQuery) := by
  have hnew : Quiet (Browser.new initialQuery) := Quiet.ite (Browser.quiet_search _) (.pure _)
  refine hnew.bind fun browser => Quiet.bind (Quiet.pollingLoop (fun b => ?_) _) fun _ => ?_
  · exact (quiet_say _).bind fun _ => quiet_readScancodeBlocking.bind fun code => b.quiet_key code
  · exact quiet_say _

theorem does_downloadGitSoftware {stuck : Prop} :
    Does stuck [] [] (fun _ s => s) downloadGitSoftware := does_sayLocked _

theorem does_gitClone {stuck : Prop} (repoUrl : Str) : Does stuck [] [] (fun ticks s =>
    { s with fs := (s.fs.createDirectory [] "git" ticks).2 }) (gitClone repoUrl) := by
  intro m hm
  simp [gitClone, hm, World.session]

end AliluOS.Network

namespace AliluOS.Apps
open Text Fs Kernel Lib Thread

/-- `print_num_at` locks `WRITER` under the guard of the frame. -/
theorem Atari.frame_deadlocks (a : Atari) {m : Held Lock World} (hm : m.locks = []) :
    wp a.frame m ⟨fun _ _ => False, fun _ => True, fun _ => False⟩ := by
  rw [frame, wp_withLock, if_neg (by simp [hm]), wp_bind, wp_say]
  simp only [printNumAt, wp_withLock]
  rw [if_pos (by simp)]
  trivial

theorem wp_startAtari {m : Held Lock World} (hm : m.locks = []) :
    let pressed := ∃ poll ∈ m.state.polls, poll.scancode.isSome
    wp startAtari m ⟨fun _ _ => False, fun _ => pressed, fun _ => ¬ pressed⟩ := by
  intro pressed
  rw [startAtari, wp_say_bind hm, wp_bind]
  rw [wp_readScancodeBlocking rfl]
  unfold AfterScancode
  rcases hnext : nextScancode m.state.polls with _ | ⟨code, polls⟩
  · exact nextScancode_eq_none.mp hnext
  · have hpressed : pressed := by
      by_contra hnone
      rw [nextScancode_eq_none.mpr hnone] at hnext
      cases hnext
    dsimp only
    rw [wp_say_bind rfl, wp_bind, pollingLoop, wp_bind, wp_read]
    dsimp only
    rw [iterate, wp_bind, wp_bind]
    exact wp_mono (Atari.frame_deadlocks _ rfl) (fun _ _ => False.elim) (fun _ _ => hpressed)
      fun _ => False.elim

end AliluOS.Apps
