import Sa.Tinyjson

/-!
# The tools' schemas

What the model is told about the tools: their parameters, with their types, and which of
them a call must give.
-/

namespace Sa.ToolSchemas
open Sa.CStrings Sa.Tinyjson

/-- A tool with the names and types of its parameters and those that it requires. -/
structure Tool where
  name : CString
  description : CString
  properties : List (CString × CString)
  required : List CString

def property (p : CString × CString) : CString × cJSON := (p.1, .object [(cs "type", .string p.2)])

/-- There is no list while nothing is required. -/
def requiredMember (required : List CString) : List (CString × cJSON) :=
  if required = [] then [] else [(cs "required", .array (required.map .string))]

def schemaOf (properties : cJSON) (required : List CString) : cJSON :=
  .object ([(cs "type", .string (cs "object")), (cs "properties", properties)] ++ requiredMember required)

def toolOf (name description : CString) (schema : cJSON) : cJSON :=
  .object [(cs "name", .string name), (cs "description", .string description), (cs "input_schema", schema)]

def Tool.tree (tool : Tool) : cJSON :=
  toolOf tool.name tool.description (schemaOf (.object (tool.properties.map property)) tool.required)

def shell : Tool where
  name := cs "shell"
  description := cs "Run a shell command via /bin/sh -c. Returns combined stdout+stderr and exit code."
  properties := [(cs "cmd", cs "string")]
  required := [cs "cmd"]

def read_file : Tool where
  name := cs "read_file"
  description := cs "Read a text file. Returns up to 'limit' lines starting from 'offset' (1-indexed), each prefixed with line number + tab. Default limit 2000. Hard cap 256KB. For larger files, page through with offset."
  properties := [(cs "path", cs "string"), (cs "offset", cs "integer"), (cs "limit", cs "integer")]
  required := [cs "path"]

def edit_file : Tool where
  name := cs "edit_file"
  description := cs "Edit a file. If 'old_string' is empty, write 'new_string' as the full file contents (creates or overwrites). Otherwise, 'old_string' must appear exactly once in the file and will be replaced with 'new_string'. Errors on 0 or >1 matches. Atomic via .tmp + rename. File size cap 4 MB."
  properties := [(cs "path", cs "string"), (cs "old_string", cs "string"), (cs "new_string", cs "string")]
  required := [cs "path", cs "old_string", cs "new_string"]

/-- The `tools` of a request. -/
def tools : List cJSON := [shell.tree, read_file.tree, edit_file.tree]

end Sa.ToolSchemas
