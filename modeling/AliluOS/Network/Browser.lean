import AliluOS.Kernel.World
import AliluOS.Network.Http
import AliluOS.Network.Html

/-! The search browser of `network.rs`, and the two commands of its git client. -/

namespace AliluOS.Network
open Text Kernel Lib Thread Fs

def networkFile : Str := "src/network.rs"

def gitClone (repoUrl : Str) : KernelM Unit := do
  withLock .writer <| say [.setColor .lightCyan .black, .write "Cloning git repository '",
    .write repoUrl, .println "'...", .setColor .white .black]
  let ticks ← timerTicks
  withLock .fs do
    let (_, fs) := (← getFs).createDirectory [] "git" ticks
    setFs fs
  withLock .writer <| say [.setColor .lightGreen .black,
    .println "Git repository cloned successfully into B-Tree index at /git/.",
    .setColor .white .black]

def downloadGitSoftware : KernelM Unit :=
  withLock .writer <| say [.setColor .lightCyan .black,
    .println "Downloading 'git' software client...", .setColor .lightGreen .black,
    .println "Git software client downloaded and registered successfully.",
    .setColor .white .black]

def formatDuckduckgoUrl (query : Str) : Str :=
  "https://html.duckduckgo.com/html/?q=".toList ++ query.map fun c => if c = ' ' then '+' else c

def formatStr (pre mid post : Str) : Str := pre ++ mid ++ post

/-- The list shown when `http_get` fails. -/
def searchIndex (query : Str) : List Str :=
  [formatStr "[1] DuckDuckGo Result: " query "",
    formatStr "    Top matching search entry for '" query "' on DuckDuckGo...",
    "",
    formatStr "[2] " query " Reference Manual & Documentation",
    formatStr "    Official reference guides and tutorials for '" query "'",
    "",
    formatStr "[3] Developer Discussions & Examples for " query "",
    formatStr "    Community projects, blogs, and code snippets matching '" query "'"]

def performDuckduckgoSearch (query : Str) : Net (List Str) := do
  let header : List Str := [formatStr "# DuckDuckGo Search Results: \"" query "\"", ""]
  match ← httpGet (formatDuckduckgoUrl query) with
  | .ok response => return header ++ (← parseHtml response.body).lines
  | .error _ => return header ++ searchIndex query

structure Browser where
  query : Str
  scrollOffset : Nat
  results : Option (List Str)

def renderLine (line : Str) : List VgaCall :=
  if "# ".toList.isPrefixOf line then
    [.setColor .lightGreen .black, .println line, .setColor .white .black]
  else if "[".toList.isPrefixOf line then
    [.setColor .lightCyan .black, .println line, .setColor .white .black]
  else [.println line]

def Browser.render (b : Browser) : List VgaCall :=
  [.clear, .setColor .black .lightCyan,
    .write " DuckDuckGo Search Engine [AliluOS CLI Web Browser]                     ",
    .println "", .setColor .white .black, .setColor .lightGreen .black, .write "Search: ",
    .setColor .white .black, .write b.query, .write "_", .println "",
    .setColor .darkGray .black,
    .println "[Type query + Enter: Search | Up/Down: Scroll Results | ESC: Exit]",
    .setColor .lightCyan .black,
    .println "------------------------------------------------------------------------",
    .setColor .white .black] ++
  match b.results with
  | some lines =>
    if lines.isEmpty then [.println "No search results found."]
    else ((lines.drop b.scrollOffset).take 17).flatMap renderLine
  | none =>
    [.println "", .setColor .yellow .black,
      .println "  Type what you want to search for above and press Enter!",
      .println "  Example queries: 'rust os', 'bare metal keyboard', 'b-tree fs'",
      .setColor .white .black]

def queryKeys : List (UInt8 × Char) :=
  [(0x1E, 'a'), (0x30, 'b'), (0x2E, 'c'), (0x20, 'd'), (0x12, 'e'), (0x21, 'f'), (0x22, 'g'),
    (0x23, 'h'), (0x17, 'i'), (0x24, 'j'), (0x25, 'k'), (0x26, 'l'), (0x32, 'm'), (0x31, 'n'),
    (0x18, 'o'), (0x19, 'p'), (0x10, 'q'), (0x13, 'r'), (0x1F, 's'), (0x14, 't'), (0x16, 'u'),
    (0x2F, 'v'), (0x11, 'w'), (0x2D, 'x'), (0x15, 'y'), (0x2C, 'z'), (0x02, '1'), (0x03, '2'),
    (0x04, '3'), (0x05, '4'), (0x06, '5'), (0x07, '6'), (0x08, '7'), (0x09, '8'), (0x0A, '9'),
    (0x0B, '0'), (0x39, ' '), (0x34, '.'), (0x35, '/'), (0x0C, '-')]

def scancodeToChar (scancode : UInt8) : Option Char := queryKeys.lookup scancode

def Browser.search (b : Browser) : KernelM Browser :=
  match (performDuckduckgoSearch b.query).answer with
  | some lines => return { b with results := some lines }
  | none => kernelPanic networkFile

def Browser.key (b : Browser) (code : UInt8) : KernelM (Browser ⊕ Unit) :=
  if code = 0x01 then return .inr ()
  else if code = 0x1C then
    if trim b.query ≠ [] then return .inl (← { b with scrollOffset := 0 }.search)
    else return .inl b
  else if code = 0x0E then return .inl { b with query := b.query.dropLast }
  else if code = 0x48 then
    if b.scrollOffset > 0 then return .inl { b with scrollOffset := b.scrollOffset - 1 }
    else return .inl b
  else if code = 0x50 then
    match b.results with
    | some lines =>
      if b.scrollOffset + 1 < lines.length then
        return .inl { b with scrollOffset := b.scrollOffset + 1 }
      else return .inl b
    | none => return .inl b
  else
    match scancodeToChar code with
    | some c =>
      if utf8Len b.query < 60 then return .inl { b with query := b.query ++ [c] }
      else return .inl b
    | none => return .inl b

def Browser.new (initialQuery : Str) : KernelM Browser :=
  let browser : Browser := ⟨initialQuery, 0, none⟩
  if trim initialQuery ≠ [] then browser.search else return browser

def startBrowser (initialQuery : Str) : KernelM Unit := do
  let browser ← Browser.new initialQuery
  pollingLoop (fun b : Browser => do
    withLock .writer <| say b.render
    let code ← readScancodeBlocking
    b.key code) browser
  withLock .writer <| say [.clear, .setColor .lightGreen .black,
    .println "=== AliluOS Interactive Shell ===", .setColor .white .black,
    .println "Exited DuckDuckGo search browser.\n"]

end AliluOS.Network
