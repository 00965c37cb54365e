import Emend.Text.Basic

namespace Emend.Instructions

def unifiedDiff (directory : Text) : Text :=
  "# Editing files

Describe every edit as a unified diff inside a ```diff fenced block.

1. Start each file with headers:
    ```
    --- path/to/original/file
    +++ path/to/modified/file
    ```
    - Paths are relative to ".toList ++ directory ++ "
    - Use /dev/null as the original path for a new file

2. For each change section:
    - Begin with a \"@@ ... @@\" separator line without line numbers
    - Include 2-3 lines of unchanged context before and after the change
    - Mark removed lines with \"-\" and added lines with \"+\"
    - Start unchanged context lines with a single space
    - Preserve exact indentation

3. Keep related modifications in the same hunk; when changing a function,
   include the whole function.".toList

def searchReplace (directory : Text) : Text :=
  "# Editing files

Describe every edit as a search and replace block, preceded by the path of
the file to change (relative to ".toList ++ directory ++ ").

```
path/to/file
<<<<<<< SEARCH
[content to find including whitespace]
=======
[new content to replace with]
>>>>>>> REPLACE
```

- The SEARCH section should match existing content as closely as possible,
  including indentation.
- Leave the SEARCH section empty to create a new file.
- Use one block per location; do not repeat unchanged code.".toList

def wholeFile (directory : Text) : Text :=
  "# Editing files

Return the complete new content of every file you change. Put the file path
(relative to ".toList ++ directory ++ ") in square brackets on its own line, directly followed by a
fenced code block with the full file:

[path/to/file]
```
full file content
```

Never elide unchanged parts of a file.".toList

end Emend.Instructions
