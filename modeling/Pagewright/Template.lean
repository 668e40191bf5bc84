import Pagewright.Quoted
import Pagewright.Text.Split

/-!
# The files of a new project
-/

namespace Pagewright.Template

/-- Lines, each with its line feed. -/
def lines (texts : List String) : String := String.join (texts.map (· ++ "\n"))

/-- The manifest. -/
def manifest : String := lines [
  "# Tessera project manifest",
  "",
  "[sources]",
  "# output base name = entry source",
  "index = \"src/index.tsr\"",
  "",
  "[out]",
  "path = \"www\"",
  "js = \"js\"",
  "html = \"html\"",
  "css = \"css\""]

/-- The source of the first page, with the title of the project. -/
def index (title : String) : String := lines [
  "*include widgets: 'widgets.tsr';",
  "",
  "Panel as main_panel \x7b",
  "    h1 \x7b text = '" ++ escapeSingleQuoted title ++ "'; \x7d",
  "    Counter as counter \x7b \x7d",
  "\x7d"]

/-- The classes of the first page. -/
def widgets : String := lines [
  "class Panel extends section \x7b",
  "    style \x7b",
  "        padding: 16px;",
  "        font-family: sans-serif;",
  "    \x7d",
  "\x7d",
  "",
  "class Counter extends button \x7b",
  "    style \x7b",
  "        font-size: 18px;",
  "    \x7d",
  "    state:hover \x7b background: #eee; \x7d",
  "",
  "    private \x7b",
  "        var clicks = 0;",
  "    \x7d",
  "",
  "    public \x7b",
  "        var text = 'Clicked 0 times';",
  "        on click(event) \x7b",
  "            clicks += 1;",
  "            text = 'Clicked ' + clicks + ' times';",
  "        \x7d",
  "    \x7d",
  "\x7d"]

/-- The files that version control leaves out. -/
def ignored : String := lines ["/www/"]

end Pagewright.Template
