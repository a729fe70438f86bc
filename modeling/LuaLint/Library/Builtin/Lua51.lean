import LuaLint.Library.Builtin.Words

/-!
# Lua 5.1

What Lua 5.1 offers to a program.
-/

namespace LuaLint.Library.Builtin

def lua51Globals : NameMap Field :=
  fields [
    ("_G", value .newFields),
    ("_VERSION", value .readOnly),
    ("arg", value .fullWrite),
    ("assert", procedure [need .any, may .string]),
    ("collectgarbage", procedure [may (oneOf ["collect", "stop", "restart", "count", "step",
      "setpause", "setstepmul"]), may .number]),
    ("coroutine", group [
      ("create", function [need .function]),
      ("resume", procedure [need (shown "coroutine"), more]),
      ("running", function []),
      ("status", function [need (shown "coroutine")]),
      ("wrap", function [need .function]),
      ("yield", procedure [more])]),
    ("debug", group [
      ("debug", procedure []),
      ("getfenv", function [need .any]),
      ("gethook", function [may (shown "thread")]),
      ("getinfo", function [need .any, may .any, may .string]),
      ("getlocal", function [need .any, need .number, may .number]),
      ("getmetatable", function [need .any]),
      ("getregistry", function []),
      ("getupvalue", function [need .function, need .number]),
      ("setfenv", procedure [need .any, need .table]),
      ("sethook", procedure [may .any, may .any, may .any, may .number]),
      ("setlocal", procedure [need .any, need .number, need .any, may .any]),
      ("setmetatable", procedure [need .any, need .any]),
      ("setupvalue", procedure [need .function, need .number, need .any]),
      ("traceback", function [may .any, may .any, may .number])]),
    ("dofile", procedure [may .string]),
    ("error", procedure [need .any, may .number]),
    ("gcinfo", outdated (function [])
      "`gcinfo` is deprecated, use `collectgarbage(\"count\")` instead"
      ["collectgarbage(\"count\")"]),
    ("getfenv", function [may .any]),
    ("getmetatable", function [need .any]),
    ("io", group [
      ("close", procedure [may (shown "file")]),
      ("flush", procedure []),
      ("input", procedure [may .any]),
      ("lines", function [may .string]),
      ("open", function [need .string, may (oneOf ["r", "w", "a", "r+", "w+", "a+", "rb", "wb",
        "ab", "r+b", "w+b", "a+b"])]),
      ("output", procedure [may .any]),
      ("popen", function [need .string, may (oneOf ["r", "w"])]),
      ("read", function [more]),
      ("stderr", shared "File"),
      ("stdin", shared "File"),
      ("stdout", shared "File"),
      ("tmpfile", function []),
      ("type", function [need .any]),
      ("write", procedure [more])]),
    ("ipairs", function [need .table]),
    ("load", function [need .function, may .string]),
    ("loadfile", function [may .string]),
    ("loadstring", function [need .string, may .string]),
    ("math", group [
      ("abs", function [need .number]),
      ("acos", function [need .number]),
      ("asin", function [need .number]),
      ("atan", function [need .number]),
      ("atan2", function [need .number, need .number]),
      ("ceil", function [need .number]),
      ("cos", function [need .number]),
      ("cosh", function [need .number]),
      ("deg", function [need .number]),
      ("exp", function [need .number]),
      ("floor", function [need .number]),
      ("fmod", function [need .number, need .number]),
      ("frexp", function [need .number]),
      ("huge", value .readOnly),
      ("ldexp", function [need .number, need .number]),
      ("log", function [need .number]),
      ("log10", function [need .number]),
      ("max", function [need .number,
        needMore "use of max only makes sense with more than 1 parameter"]),
      ("min", function [need .number,
        needMore "use of min only makes sense with more than 1 parameter"]),
      ("modf", function [need .number]),
      ("pi", value .readOnly),
      ("pow", function [need .number, need .number]),
      ("rad", function [need .number]),
      ("random", function [may .number, may .number]),
      ("randomseed", procedure [need .number]),
      ("sin", function [need .number]),
      ("sinh", function [need .number]),
      ("sqrt", function [need .number]),
      ("tan", function [need .number]),
      ("tanh", function [need .number])]),
    ("module", procedure [need .string, more]),
    ("next", function [need .table, may .any]),
    ("os", group [
      ("clock", function []),
      ("date", function [may .string, may .number]),
      ("difftime", function [need .number, may .number]),
      ("execute", procedure [may .string]),
      ("exit", procedure [may .number]),
      ("getenv", function [need .string]),
      ("remove", procedure [need .string]),
      ("rename", procedure [need .string, need .string]),
      ("setlocale", procedure [may .string, may (oneOf ["all", "collate", "ctype", "monetary",
        "numeric", "time"])]),
      ("time", function [may .table]),
      ("tmpname", function [])]),
    ("package", group [
      ("cpath", value .overrideFields),
      ("loaded", value .newFields),
      ("loaders", value .newFields),
      ("loadlib", function [need .string, need .string]),
      ("path", value .overrideFields),
      ("preload", value .newFields),
      ("seeall", procedure [need .table])]),
    ("pairs", function [need .table]),
    ("pcall", procedure [need .function, more]),
    ("print", procedure [more]),
    ("rawequal", function [need .any, need .any]),
    ("rawget", function [need .table, need .any]),
    ("rawset", procedure [need .table, need .any, need .any]),
    ("require", procedure [need .string]),
    ("select", function [need .any, needMore "select needs values to pick from"]),
    ("setfenv", procedure [need .any, need .table]),
    ("setmetatable", procedure [need .table, need .any]),
    ("string", group [
      ("byte", function [need .string, may .number, may .number]),
      ("char", function [more]),
      ("dump", function [need .function]),
      ("find", function [need .string, need .string, may .number, may .bool]),
      ("format", function [need .string, more]),
      ("gmatch", function [need .string, need .string]),
      ("gsub", function [need .string, need .string, need .any, may .number]),
      ("len", function [need .string]),
      ("lower", function [need .string]),
      ("match", function [need .string, need .string, may .number]),
      ("rep", function [need .string, need .number]),
      ("reverse", function [need .string]),
      ("sub", function [need .string, need .number, may .number]),
      ("upper", function [need .string])]),
    ("table", group [
      ("concat", function [reads (need .table), may .string, may .number, may .number]),
      ("foreach", outdated (procedure [reads (need .table), need .function])
        "`table.foreach` is deprecated, use a `for` loop with `pairs` instead"
        ["for key, value in pairs(%1) do %2(key, value) end"]),
      ("foreachi", outdated (procedure [reads (need .table), need .function])
        "`table.foreachi` is deprecated, use a `for` loop with `ipairs` instead"
        ["for index, value in ipairs(%1) do %2(index, value) end"]),
      ("getn", outdated (function [reads (need .table)])
        "`table.getn` is deprecated, use the length operator instead" ["#%1"]),
      ("insert", procedure [writes (need .table), need .any, may .any]),
      ("maxn", function [reads (need .table)]),
      ("remove", procedure [need .table, may .number]),
      ("setn", outdated (procedure [need .table, need .number])
        "`table.setn` is deprecated" []),
      ("sort", procedure [need .table, may .function])]),
    ("tonumber", function [need .any, may .number]),
    ("tostring", function [need .any]),
    ("type", function [need .any]),
    ("unpack", function [need .table, may .number, may .number]),
    ("xpcall", procedure [need .function, need .function])]

def lua51Structs : NameMap Field :=
  fields [
    ("File", group [
      ("close", method []),
      ("flush", method []),
      ("lines", query []),
      ("read", query [more]),
      ("seek", method [may (oneOf ["set", "cur", "end"]), may .number]),
      ("setvbuf", method [need (oneOf ["no", "full", "line"]), may .number]),
      ("write", method [more])])]

def lua51 : Library := ⟨"lua51", "", lua51Globals, lua51Structs⟩

end LuaLint.Library.Builtin
