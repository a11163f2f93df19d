import GraphClient.Text.Quoted

/-!
# The introspection query

`Introspection.query` asks a server for its types, and `Introspection.requestBody` is the
body of the request that carries it. Types are followed through nine wrappers.
-/

namespace GraphClient.Introspection

def queryLines : List String :=
  ["",
    "    query IntrospectionQuery \x7b",
    "      __schema \x7b",
    "        ",
    "        queryType \x7b name kind \x7d",
    "        mutationType \x7b name kind \x7d",
    "        subscriptionType \x7b name kind \x7d",
    "        types \x7b",
    "          ...FullType",
    "        \x7d",
    "        directives \x7b",
    "          name",
    "          description",
    "          ",
    "          ",
    "          ",
    "          locations",
    "          args \x7b",
    "            ...InputValue",
    "          \x7d",
    "        \x7d",
    "      \x7d",
    "    \x7d",
    "",
    "    fragment FullType on __Type \x7b",
    "      kind",
    "      name",
    "      description",
    "      ",
    "      ",
    "      fields(includeDeprecated: true) \x7b",
    "        name",
    "        description",
    "        args \x7b",
    "          ...InputValue",
    "        \x7d",
    "        type \x7b",
    "          ...TypeRef",
    "        \x7d",
    "        isDeprecated",
    "        deprecationReason",
    "      \x7d",
    "      inputFields \x7b",
    "        ...InputValue",
    "      \x7d",
    "      interfaces \x7b",
    "        ...TypeRef",
    "      \x7d",
    "      enumValues(includeDeprecated: true) \x7b",
    "        name",
    "        description",
    "        isDeprecated",
    "        deprecationReason",
    "      \x7d",
    "      possibleTypes \x7b",
    "        ...TypeRef",
    "      \x7d",
    "    \x7d",
    "",
    "    fragment InputValue on __InputValue \x7b",
    "      name",
    "      description",
    "      type \x7b ...TypeRef \x7d",
    "      defaultValue",
    "      ",
    "      ",
    "    \x7d",
    "",
    "    fragment TypeRef on __Type \x7b",
    "      kind",
    "      name",
    "      ofType \x7b",
    "        name",
    "        kind",
    "        ofType \x7b",
    "          name",
    "          kind",
    "          ofType \x7b",
    "            name",
    "            kind",
    "            ofType \x7b",
    "              name",
    "              kind",
    "              ofType \x7b",
    "                name",
    "                kind",
    "                ofType \x7b",
    "                  name",
    "                  kind",
    "                  ofType \x7b",
    "                    name",
    "                    kind",
    "                    ofType \x7b",
    "                      name",
    "                      kind",
    "                      ofType \x7b",
    "                        name",
    "                        kind",
    "                      \x7d",
    "                    \x7d",
    "                  \x7d",
    "                \x7d",
    "              \x7d",
    "            \x7d",
    "          \x7d",
    "        \x7d",
    "      \x7d",
    "    \x7d",
    "  "]

/-- The text of the query. -/
def query : String := "\n".intercalate queryLines

/-- The body of a request with the query. -/
def requestBody : String := "\x7b\"query\":" ++ Text.quote query ++ "\x7d"

end GraphClient.Introspection
